import PgSnowflakeCdc.Sink.Sequential

/-!
# The reconciliation script (`scripts/reconcile.py`)

The selected rows of a PostgreSQL table are fetched in chunks; each chunk becomes one MERGE, built
like the sink's, on the current-state table.

* `chunkMerge`, `reconcileLoop`, `reconcileTable` — the script;
* `opAt_chunkMerge`, `runOps_reconcileLoop` — a chunk and the whole loop at one key.
-/

namespace PgSnowflakeCdc

open OrderedDict RowNumbering KeyedRows

/-- The MERGE of one chunk: the column list is that of its first row. -/
def chunkMerge (P : Platform) (sfCurrent : String) (first : Row) (rest : List Row) : Stmt :=
  let sfRows := (first :: rest).map (rowToSf P)
  let allCols := (rowToSf P first).keys
  .merge sfCurrent (pkOf sfCurrent) allCols (sfRows.map fun row => allCols.map (cell row))

/-- The loop of `_reconcile_table` over the rows still to fetch, `fetchmany` returning at most
`batch` of them: the statements executed, and the number of rows they cover. -/
def reconcileLoop (P : Platform) (sfCurrent : String) (batch : ℕ) (rows : List Row) :
    List Stmt × ℕ :=
  match _h : rows.take batch with
  | [] => ([], 0)
  | first :: rest =>
    let later := reconcileLoop P sfCurrent batch (rows.drop batch)
    (chunkMerge P sfCurrent first rest :: later.1, (first :: rest).length + later.2)
termination_by rows.length
decreasing_by
  have hlen : (rows.take batch).length = rest.length + 1 := by rw [_h, List.length_cons]
  rw [List.length_take] at hlen
  rw [List.length_drop]
  omega

/-- `_reconcile_table` on the rows its query selects. -/
def reconcileTable (P : Platform) (batch : ℕ) (pgTable : String) (rows : List Row) :
    Except KeyError (List Stmt × ℕ) :=
  match tableMap.get? pgTable with
  | none => .error ⟨pgTable⟩
  | some (sfCurrent, _) => .ok (reconcileLoop P sfCurrent batch rows)

/-- Every statement of the loop is the MERGE of some of the selected rows. -/
theorem mem_reconcileLoop {P : Platform} {sfCurrent : String} {batch : ℕ} {rows : List Row}
    {stmt : Stmt} (h : stmt ∈ (reconcileLoop P sfCurrent batch rows).1) :
    ∃ first rest, first :: rest ⊆ rows ∧ stmt = chunkMerge P sfCurrent first rest := by
  induction hn : rows.length using Nat.strong_induction_on generalizing rows with
  | _ n ih =>
    rw [reconcileLoop] at h
    split at h
    · simp at h
    · next first rest hchunk =>
      rcases List.mem_cons.mp h with rfl | h
      · exact ⟨first, rest, hchunk ▸ List.take_subset _ _, rfl⟩
      · have hlen : (rows.take batch).length = rest.length + 1 := by rw [hchunk, List.length_cons]
        rw [List.length_take] at hlen
        obtain ⟨first', rest', hsub, rfl⟩ :=
          ih (rows.drop batch).length (by rw [List.length_drop]; omega) h rfl
        exact ⟨first', rest', fun row hrow => List.mem_of_mem_drop (hsub hrow), rfl⟩

/-- The MERGE of rows with non-null keys writes its table by primary key. -/
theorem keyedOn_chunkMerge {P : Platform} {sfCurrent : String} {first : Row} {rest : List Row}
    (h : ∀ row ∈ first :: rest, KeyNonNull P sfCurrent row) (t : String) :
    (chunkMerge P sfCurrent first rest).KeyedOn P t := by
  rintro rfl
  refine ⟨rfl, key_notNull_of_mergeCurrent ?_ ?_⟩
  · intro c hc
    exact mem_keys_of_cell (h first List.mem_cons_self c hc)
  · intro r hr
    obtain ⟨row, hrow, rfl⟩ := List.mem_map.mp hr
    exact h row hrow

/-- **The MERGE of a chunk at a key**, its rows having the same columns: nothing when no row has the key,
otherwise one of its rows is assigned. -/
theorem opAt_chunkMerge {P : Platform} (sfCurrent : String) {columns : List String} {first : Row}
    {rest : List Row} (hlisted : ∀ row ∈ first :: rest, row.keys = columns)
    (tie : Stmt → RowOrder) (k : List PyVal) :
    ((∀ row ∈ first :: rest, rowKey P sfCurrent row ≠ k) ∧
        (chunkMerge P sfCurrent first rest).opAt P tie sfCurrent k = .keep) ∨
      ∃ row ∈ first :: rest, rowKey P sfCurrent row = k ∧
        (chunkMerge P sfCurrent first rest).opAt P tie sfCurrent k =
          .assign (assignment P sfCurrent row) := by
  have hcols : ∀ row ∈ first :: rest, ∀ c,
      c ∈ (rowToSf P row).keys ↔ c ∈ (rowToSf P first).keys := by
    intro row hrow c
    rw [mem_keys_rowToSf, mem_keys_rowToSf, hlisted row hrow, hlisted first List.mem_cons_self]
  rw [chunkMerge, Stmt.opAt, if_pos rfl, mergeOp, sourceRows_converted hcols]
  cases hfind : (qualifyFirst (keyOf (pkOf sfCurrent)) _
      ((first :: rest).map (imageRow P sfCurrent))).find?
      (fun s => keyOf (pkOf sfCurrent) s = k) with
  | none =>
    refine Or.inl ⟨fun row hrow hkey => ?_, rfl⟩
    obtain ⟨s, hs, hsame⟩ := exists_mem_qualifyFirst (keyOf (pkOf sfCurrent)) _
      (List.mem_map_of_mem hrow)
    rw [List.find?_eq_none] at hfind
    exact hfind s hs (decide_eq_true (hsame.trans hkey))
  | some s =>
    have hmem := mem_of_mem_qualifyFirst _ _ (List.mem_of_find?_eq_some hfind)
    obtain ⟨row, hrow, rfl⟩ := List.mem_map.mp hmem
    have hkey : keyOf (pkOf sfCurrent) (imageRow P sfCurrent row) = k := by
      simpa using List.find?_some hfind
    have hassign : (fun c => if c ∈ (rowToSf P first).keys then some (imageRow P sfCurrent row c)
        else none) = assignment P sfCurrent row := by
      funext c
      rw [assignment_eq, if_congr (hcols row hrow c).symm rfl rfl]
    refine Or.inr ⟨row, hrow, hkey, ?_⟩
    rw [← hassign]

/-! ### The loop at a key -/

section Loop

variable {P : Platform} {sfCurrent : String} {columns : List String} {batch : ℕ} {rows : List Row}
  (hlisted : ∀ row ∈ rows, row.keys = columns) (tie : Stmt → RowOrder) {k : List PyVal}

include hlisted

/-- The loop leaves a key alone that no selected row has. -/
theorem runOps_reconcileLoop_free (hfree : ∀ row ∈ rows, rowKey P sfCurrent row ≠ k)
    (rs : List SfRow) :
    runOps .none ((reconcileLoop P sfCurrent batch rows).1.map (Stmt.opAt P tie sfCurrent k)) rs = rs := by
  refine Replay.run_invariant (P := fun rs' => rs' = rs) _ rfl ?_
  intro o ho rs' hrs'
  obtain ⟨stmt, hstmt, rfl⟩ := List.mem_map.mp ho
  obtain ⟨first, rest, hsub, rfl⟩ := mem_reconcileLoop hstmt
  rcases opAt_chunkMerge sfCurrent (fun row hrow => hlisted row (hsub hrow)) tie k with
    ⟨-, hop⟩ | ⟨row, hrow, hkey, -⟩
  · rw [hop]
    exact hrs'
  · exact absurd hkey (hfree row (hsub hrow))

/-- **The loop at the key of a selected row** assigns the row, when no other has its key. -/
theorem runOps_reconcileLoop (hbatch : 0 < batch) (hkeys : (rows.map (rowKey P sfCurrent)).Nodup)
    {row : Row} (hrow : row ∈ rows) (hkey : rowKey P sfCurrent row = k) (rs : List SfRow) :
    runOps .none ((reconcileLoop P sfCurrent batch rows).1.map (Stmt.opAt P tie sfCurrent k)) rs =
      (RowOp.assign (assignment P sfCurrent row)).act .none rs := by
  induction rows using reconcileLoop.induct P sfCurrent batch generalizing rs with
  | case1 rows hchunk =>
    have hnil : rows = [] := (List.take_eq_nil_iff.mp hchunk).resolve_left (by omega)
    rw [hnil] at hrow
    cases hrow
  | case2 rows first rest hchunk ih =>
    have hsplit := List.take_append_drop batch rows
    have hchunkListed : ∀ r ∈ first :: rest, r.keys = columns := fun r hr =>
      hlisted r (List.mem_of_mem_take (hchunk ▸ hr))
    have hdropListed : ∀ r ∈ rows.drop batch, r.keys = columns := fun r hr =>
      hlisted r (List.mem_of_mem_drop hr)
    have hapart := hkeys
    rw [← hsplit, List.map_append, List.nodup_append] at hapart
    obtain ⟨-, hdropKeys, hapart⟩ := hapart
    rw [hchunk] at hapart
    rw [reconcileLoop]
    split
    · next hnil => rw [hchunk] at hnil; cases hnil
    · next first' rest' heq =>
      obtain ⟨rfl, rfl⟩ := List.cons.inj (hchunk.symm.trans heq)
      rw [List.map_cons, runOps_cons]
      rcases opAt_chunkMerge sfCurrent hchunkListed tie k with ⟨hfree, hop⟩ | ⟨row', hrow', hkey', hop⟩
      · have hdrop : row ∈ rows.drop batch := by
          rw [← hsplit, List.mem_append, hchunk] at hrow
          exact hrow.resolve_left fun hmem => hfree row hmem hkey
        rw [hop]
        exact ih hdropListed hdropKeys hdrop rs
      · have hmem : row' ∈ rows := List.mem_of_mem_take (hchunk ▸ hrow')
        have hsame : row' = row := List.inj_on_of_nodup_map hkeys hmem hrow (hkey'.trans hkey.symm)
        have hfree : ∀ r ∈ rows.drop batch, rowKey P sfCurrent r ≠ k := fun r hr hrk =>
          hapart _ (List.mem_map_of_mem hrow') _ (List.mem_map_of_mem hr) (hkey'.trans hrk.symm)
        rw [hop, hsame]
        exact runOps_reconcileLoop_free hdropListed tie hfree _

end Loop
end PgSnowflakeCdc
