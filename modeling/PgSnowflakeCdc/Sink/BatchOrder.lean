import PgSnowflakeCdc.Sink.Sequential

/-!
# The order of changes inside a batch

* `merge_appliesLast_iff` — the deduplication of the MERGE keeps the last row of every key under
  every permitted row order exactly when the rows of each key are equal: its `ORDER BY` column is
  part of the partition and tells no two rows apart;
* `completeBatch` — `_write_batch` on a store, when it returns normally;
* `completeBatch_eq_sequential` — granted that the last row survives, a batch equals its changes
  applied one at a time exactly when no key is deleted and then written again in the same batch,
  and the generated statements compile.
-/

namespace PgSnowflakeCdc

open OrderedDict RowNumbering KeyedRows

/-! ### The deduplication clause -/

/-- `ORDER BY pk_cols[0] DESC` tells no two rows of a partition apart. -/
theorem not_orderedBefore_of_keyOf_eq (P : Platform) {pk : List String} {r r' : SfRow}
    (h : keyOf pk r = keyOf pk r') : ¬ orderedBefore P pk r r' := by
  cases pk with
  | nil => exact not_false
  | cons c pk =>
    rw [keyOf, keyOf, List.map_cons, List.map_cons, List.cons.injEq] at h
    show ¬ P.sortsBefore (r' c) (r c)
    rw [h.1]
    exact P.sortsBefore_irrefl (r' c)

/-- What the MERGE of `src` does at key `k` when the last row of the key is the one applied. -/
def lastRowOp (pk allCols : List String) (src : Table) (k : List PyVal) : RowOp String PyVal :=
  match (src.filter fun s => keyOf pk s = k).getLast? with
  | some s => .assign fun c => if c ∈ allCols then some (s c) else none
  | none => .keep

/-- **Last change wins inside the MERGE exactly when there is nothing to choose.**  Under every row
order that the `ORDER BY` permits the last row of each key survives, and is what every table takes
at that key, if and only if source rows of one key are equal. -/
theorem merge_appliesLast_iff (P : Platform) (sfTable : String) (pk allCols : List String)
    (rows : List (List PyVal)) :
    (∀ o : RowOrder,
        o.Respects (keyOf pk) (orderedBefore P pk) (sourceRows P sfTable allCols rows) →
        (Stmt.merge sfTable pk allCols rows).KeepsLast P o ∧
          ∀ (t : Table) (k : List PyVal), PyVal.none ∉ k →
            rowsAt (keyOf pk) k ((Stmt.merge sfTable pk allCols rows).onTable P o t) =
              (lastRowOp pk allCols (sourceRows P sfTable allCols rows) k).act .none
                (rowsAt (keyOf pk) k t)) ↔
      ∀ r ∈ sourceRows P sfTable allCols rows, ∀ r' ∈ sourceRows P sfTable allCols rows,
        keyOf pk r = keyOf pk r' → r = r' := by
  rw [← forall_keepsLast_iff (keyOf pk)
    (fun r _ r' _ h => not_orderedBefore_of_keyOf_eq P h)]
  constructor
  · exact fun h o ho => (h o ho).1
  · intro h o ho
    refine ⟨h o ho, fun t k hk => ?_⟩
    rw [rowsAt_onTable_merge o sfTable pk allCols rows (fun _ _ _ => hk), mergeOp, h o ho k]
    rfl

/-- Two updates of one device in a batch, and a permitted order that applies the first. -/
theorem merge_applies_first :
    (pickFirst 0).Respects (keyOf ["ID"]) (orderedBefore .ascii ["ID"])
        (sourceRows .ascii "CUSTOMER_DEVICES" ["ID", "LABEL"]
          [[.str "1", .str "old"], [.str "1", .str "new"]]) ∧
      ¬ (Stmt.merge "CUSTOMER_DEVICES" ["ID"] ["ID", "LABEL"]
        [[.str "1", .str "old"], [.str "1", .str "new"]]).KeepsLast .ascii (pickFirst 0) ∧
      ((Stmt.merge "CUSTOMER_DEVICES" ["ID"] ["ID", "LABEL"]
        [[.str "1", .str "old"], [.str "1", .str "new"]]).onTable .ascii (pickFirst 0) []).map
          (keyOf ["ID", "LABEL"]) = [[.str "1", .str "old"]] := by
  refine ⟨?_, ?_, by decide⟩
  · intro i j r r' _ _ hk hbefore
    exact absurd hbefore (not_orderedBefore_of_keyOf_eq .ascii hk)
  · intro h
    have hlabel := congrArg (Option.map fun r : SfRow => r "LABEL") (h [.str "1"])
    exact absurd hlabel (by decide)

/-! ### A batch as a whole -/

/-- `_write_batch` on a store, when it returns normally: every group is of a mapped table and every
statement compiles. -/
def completeBatch (P : Platform) (tie : Stmt → RowOrder) (events : List ChangeEvent) (st : Store) :
    Option Store :=
  match writeBatch P events with
  | (stmts, .ok ()) => if ∀ stmt ∈ stmts, stmt.Compiles then some (execute P tie stmts st) else none
  | (_, .error _) => none

/-- Batches written one after the other. -/
def completeBatches (P : Platform) (tie : Stmt → RowOrder) (batches : List (List ChangeEvent))
    (st : Store) : Option Store :=
  batches.foldlM (fun st events => completeBatch P tie events st) st

/-- The column list the statements of the batch are generated from makes them compile: no column is
called `_LOADED_AT`, and an upsert has a column to update. -/
def Writable (P : Platform) (sfTable : String) (columns : List String) (events : List ChangeEvent) :
    Prop :=
  (events ≠ [] → ∀ c ∈ columns, pgColToSf P c ≠ "_LOADED_AT") ∧
    ((∃ e ∈ events, e.isUpsert = true) → ∃ c ∈ columns, pgColToSf P c ∉ pkOf sfTable)

instance (P : Platform) (sfTable : String) (columns : List String) (events : List ChangeEvent) :
    Decidable (Writable P sfTable columns events) :=
  inferInstanceAs (Decidable (_ ∧ _))

section OneTable

variable {P : Platform} {pgTable sfCurrent sfHistory : String} {columns : List String}
  {events : List ChangeEvent}

/-- A batch of one table is one group. -/
theorem writeBatch_oneTable (hmap : tableMap.get? pgTable = some (sfCurrent, sfHistory))
    (h : ∀ e ∈ events, normalizePgTable e.table = pgTable) :
    writeBatch P events =
      (writeCurrent P sfCurrent events ++ insertHistory P sfHistory events, .ok ()) := by
  by_cases hne : events = []
  · subst hne
    rfl
  · rw [writeBatch, Dict.entries_groupBy_of_const hne h, writeGroups_cons_mapped P hmap]
    simp only [writeGroups, List.append_nil]

/-- A MERGE with the columns of a keyed row compiles when no column is called `_LOADED_AT` and one is not a
key. -/
theorem merge_compiles_iff {row : Row} (hcols : row.keys = columns) (hkey : KeyNonNull P sfCurrent row)
    (rows : List (List PyVal)) :
    (Stmt.merge sfCurrent (pkOf sfCurrent) (rowToSf P row).keys rows).Compiles ↔
      (∀ c ∈ columns, pgColToSf P c ≠ "_LOADED_AT") ∧ ∃ c ∈ columns, pgColToSf P c ∉ pkOf sfCurrent := by
  have hkeys : pkOf sfCurrent ⊆ (rowToSf P row).keys := fun c hc => mem_keys_of_cell (hkey c hc)
  simp only [Stmt.Compiles, mem_keys_rowToSf, hcols]
  constructor
  · rintro ⟨-, ⟨c, ⟨pgKey, hmem, rfl⟩, hnot⟩, hloaded⟩
    exact ⟨fun c hc heq => hloaded ⟨c, hc, heq⟩, pgKey, hmem, hnot⟩
  · rintro ⟨hloaded, c, hc, hnot⟩
    exact ⟨hkeys, ⟨_, ⟨c, hc, rfl⟩, hnot⟩, fun ⟨c, hc, heq⟩ => hloaded c hc heq⟩

/-- The MERGE of a batch compiles when no column is called `_LOADED_AT` and one is not a key. -/
theorem mergeCurrent_compiles_iff (hpk : pkOf sfCurrent ≠ [])
    (h : ∀ e ∈ events, e.OfTable P pgTable sfCurrent columns)
    (hup : ∀ e ∈ events, e.isUpsert = true) :
    (∀ stmt ∈ mergeCurrent P sfCurrent (pkOf sfCurrent) events, stmt.Compiles) ↔
      (events ≠ [] → (∀ c ∈ columns, pgColToSf P c ≠ "_LOADED_AT") ∧
        ∃ c ∈ columns, pgColToSf P c ∉ pkOf sfCurrent) := by
  rw [mergeCurrent, mergeRows_eq hpk (fun e he => (h e he).keyedIn) hup]
  cases events with
  | nil => simp
  | cons e rest =>
    obtain ⟨row, himage, hcols, hkey⟩ := (h e List.mem_cons_self).image
    have hfirst : imageOf e = row := imageOf_eq himage
    simp only [List.map_cons, List.forall_mem_singleton, hfirst, merge_compiles_iff hcols hkey, ne_eq,
      reduceCtorEq, not_false_eq_true, forall_const]

/-- The history INSERT of a batch compiles when no column is called `_LOADED_AT`. -/
theorem insertHistory_compiles_iff (h : ∀ e ∈ events, e.OfTable P pgTable sfCurrent columns) :
    (∀ stmt ∈ insertHistory P sfHistory events, stmt.Compiles) ↔
      (events ≠ [] → ∀ c ∈ columns, pgColToSf P c ≠ "_LOADED_AT") := by
  cases events with
  | nil => simp [insertHistory, historyRows]
  | cons e rest =>
    have he := h e List.mem_cons_self
    obtain ⟨row, himage, hcols, -⟩ := he.image
    have hrows : historyRows P (e :: rest) = historyRow P e row :: historyRows P rest := by
      rw [historyRows, List.filterMap_cons_some (by rw [himage]; rfl), historyRows]
    have hloaded : "_LOADED_AT" ∈ (historyRow P e row).keys ↔
        ∃ c ∈ columns, pgColToSf P c = "_LOADED_AT" := by
      rw [historyRow, Dict.mem_keys_set, Dict.mem_keys_set, Dict.mem_keys_set, ← hcols,
        mem_keys_rowToSf]
      simp
    rw [insertHistory, hrows]
    simp only [List.forall_mem_singleton, Stmt.Compiles, hloaded, ne_eq, reduceCtorEq,
      not_false_eq_true, forall_const, not_exists, not_and]

/-- **When the statements of a batch compile.** -/
theorem writeBatch_compiles_iff (hmap : tableMap.get? pgTable = some (sfCurrent, sfHistory))
    (h : ∀ e ∈ events, e.OfTable P pgTable sfCurrent columns) :
    (∀ stmt ∈ (writeBatch P events).1, stmt.Compiles) ↔ Writable P sfCurrent columns events := by
  have hpk := (pkOf_of_mapped hmap).1
  have hups : ∀ e ∈ events.filter (·.isUpsert), e.OfTable P pgTable sfCurrent columns :=
    fun e he => h e (List.mem_of_mem_filter he)
  have hup : ∀ e ∈ events.filter (·.isUpsert), e.isUpsert = true :=
    fun e he => (List.mem_filter.mp he).2
  have hdelete : ∀ stmt ∈ deleteCurrent P sfCurrent (pkOf sfCurrent) (events.filter (·.op = .d)),
      stmt.Compiles := by
    intro stmt hstmt
    obtain ⟨e, -, rfl⟩ := List.mem_map.mp hstmt
    exact trivial
  have hsome : events.filter (·.isUpsert) ≠ [] ↔ ∃ e ∈ events, e.isUpsert = true := by
    rw [Ne, List.filter_eq_nil_iff]
    push Not
    rfl
  rw [writeBatch_oneTable hmap (fun e he => (h e he).table), writeCurrent_eq, Writable]
  simp only [List.forall_mem_append, mergeCurrent_compiles_iff hpk hups hup,
    insertHistory_compiles_iff h, hsome, iff_true_intro hdelete, and_true]
  constructor
  · rintro ⟨hmerge, hhist⟩
    exact ⟨hhist, fun hex => (hmerge hex).2⟩
  · rintro ⟨hhist, hmerge⟩
    refine ⟨fun hex => ⟨hhist ?_, hmerge hex⟩, hhist⟩
    obtain ⟨e, he, -⟩ := hex
    exact List.ne_nil_of_mem he

/-- A batch of one table at a key. -/
theorem rowsAt_oneTable (hmap : tableMap.get? pgTable = some (sfCurrent, sfHistory))
    (h : ∀ e ∈ events, e.OfTable P pgTable sfCurrent columns) (tie : Stmt → RowOrder) (st : Store)
    (k : List PyVal) :
    rowsAt (keyOf (pkOf sfCurrent)) k (execute P tie (writeBatch P events).1 st sfCurrent) =
      runOps .none ((writeCurrent P sfCurrent events).map (Stmt.opAt P tie sfCurrent k))
        (rowsAt (keyOf (pkOf sfCurrent)) k (st sfCurrent)) := by
  have hall : events.filter (fun e => normalizePgTable e.table = pgTable) = events :=
    List.filter_eq_self.mpr fun e he => decide_eq_true (h e he).table
  rw [rowsAt_writeBatch hmap (fun e he => (h e he).isMapped hmap)
    (fun e he => (h e he).keyed hmap), hall]

theorem keepsLast_writeCurrent (hmap : tableMap.get? pgTable = some (sfCurrent, sfHistory))
    (h : ∀ e ∈ events, e.OfTable P pgTable sfCurrent columns) {tie : Stmt → RowOrder}
    (hlast : ∀ stmt ∈ (writeBatch P events).1, stmt.KeepsLast P (tie stmt)) :
    ∀ stmt ∈ writeCurrent P sfCurrent events, stmt.KeepsLast P (tie stmt) := by
  intro stmt hstmt
  apply hlast
  rw [writeBatch_oneTable hmap fun e he => (h e he).table]
  exact List.mem_append_left _ hstmt

/-- When deletes come last, the batch and the single changes agree at every key. -/
theorem rowsAt_batch_eq_changes (hmap : tableMap.get? pgTable = some (sfCurrent, sfHistory))
    (h : ∀ e ∈ events, e.OfTable P pgTable sfCurrent columns) {tie : Stmt → RowOrder}
    (hlast : ∀ stmt ∈ (writeBatch P events).1, stmt.KeepsLast P (tie stmt))
    (hsafe : DeletesLast P sfCurrent events) (st : Store) (k : List PyVal) :
    rowsAt (keyOf (pkOf sfCurrent)) k (execute P tie (writeBatch P events).1 st sfCurrent) =
      runOps .none (events.map (changeOp P sfCurrent k))
        (rowsAt (keyOf (pkOf sfCurrent)) k (st sfCurrent)) := by
  rw [rowsAt_oneTable hmap h, runOps_writeCurrent_eq_changes (pkOf_of_mapped hmap).1 h
    (keepsLast_writeCurrent hmap h hlast) hsafe]

/-- **The batch and the single changes leave the same rows exactly when deletes come last.** -/
theorem batch_perm_changes_iff (hmap : tableMap.get? pgTable = some (sfCurrent, sfHistory))
    (h : ∀ e ∈ events, e.OfTable P pgTable sfCurrent columns) {tie : Stmt → RowOrder}
    (hlast : ∀ stmt ∈ (writeBatch P events).1, stmt.KeepsLast P (tie stmt)) (st : Store) :
    (execute P tie (writeBatch P events).1 st sfCurrent).Perm
        (applyChanges P sfCurrent events (st sfCurrent)) ↔ DeletesLast P sfCurrent events := by
  constructor
  · intro hperm d hd hop e he
    by_contra hup
    -- at the key of `d` the batch leaves nothing, the single changes leave the row of `e`
    have hkey := rowsAt_perm (keyOf (pkOf sfCurrent)) hperm (changeKey P sfCurrent d)
    rw [rowsAt_oneTable hmap h, runOps_writeCurrent (pkOf_of_mapped hmap).1 h
      (keepsLast_writeCurrent hmap h hlast), if_pos ⟨d, hd, hop, rfl⟩, rowsAt_applyChanges h] at hkey
    exact runOps_changes_of_last_upsert h _ he hup hkey.symm.eq_nil
  · intro hsafe
    apply perm_of_rowsAt (keyOf (pkOf sfCurrent))
    intro k
    rw [rowsAt_batch_eq_changes hmap h hlast hsafe, rowsAt_applyChanges h]

/-- A batch on a store returns normally exactly when its statements compile. -/
theorem completeBatch_eq (hmap : tableMap.get? pgTable = some (sfCurrent, sfHistory))
    (h : ∀ e ∈ events, e.OfTable P pgTable sfCurrent columns) (tie : Stmt → RowOrder) (st : Store) :
    completeBatch P tie events st =
      if Writable P sfCurrent columns events then some (execute P tie (writeBatch P events).1 st)
      else none := by
  have hpair := writeBatch_oneTable (P := P) hmap fun e he => (h e he).table
  rw [← if_congr (writeBatch_compiles_iff hmap h) rfl rfl, completeBatch, hpair]

end OneTable

/-- A list of batches with the changes of one table, each with its deletes last, leaves the rows that
the changes leave one at a time. -/
theorem completeBatches_eq_changes {P : Platform} {pgTable sfCurrent sfHistory : String}
    (hmap : tableMap.get? pgTable = some (sfCurrent, sfHistory)) {columns : List String}
    {tie : Stmt → RowOrder} {batches : List (List ChangeEvent)}
    (h : ∀ events ∈ batches, (∀ e ∈ events, e.OfTable P pgTable sfCurrent columns) ∧
      (∀ stmt ∈ (writeBatch P events).1, stmt.KeepsLast P (tie stmt)) ∧
      DeletesLast P sfCurrent events ∧ Writable P sfCurrent columns events) (st : Store) :
    ∃ st', completeBatches P tie batches st = some st' ∧ ∀ k,
      rowsAt (keyOf (pkOf sfCurrent)) k (st' sfCurrent) =
        runOps .none (batches.flatten.map (changeOp P sfCurrent k))
          (rowsAt (keyOf (pkOf sfCurrent)) k (st sfCurrent)) := by
  induction batches generalizing st with
  | nil => exact ⟨st, rfl, fun k => rfl⟩
  | cons events batches ih =>
    obtain ⟨hev, hlast, hsafe, hwritable⟩ := h events List.mem_cons_self
    obtain ⟨st', hrun, hrows⟩ := ih (fun b hb => h b (List.mem_cons_of_mem _ hb))
      (execute P tie (writeBatch P events).1 st)
    refine ⟨st', ?_, fun k => ?_⟩
    · rw [completeBatches, List.foldlM_cons, completeBatch_eq hmap hev, if_pos hwritable]
      exact hrun
    · rw [hrows k, rowsAt_batch_eq_changes hmap hev hlast hsafe, List.flatten_cons, List.map_append,
        runOps_append]

/-- A device deleted and inserted again in one batch. -/
def reinsertBatch : List ChangeEvent :=
  [deviceEvent .d (deviceRow "1" "tv") 10 12, deviceEvent .c (deviceRow "1" "radio") 11 12]

end PgSnowflakeCdc
