import PgSnowflakeCdc.Scripts.Reconcile
import PgSnowflakeCdc.Sink.BatchOrder

/-!
# Whole runs of the reconciliation script

`_reconcile_table` cuts the selected rows into chunks of `RECONCILE_BATCH_SIZE` and writes one MERGE for
each.

* `selectedOp` — what the selected rows mean at one key, whatever their order;
* `rowsAt_reconcileLoop` — the loop does it at every key, whatever the size of its chunks;
* `reconcile_batching_iff` — **every run leaves the same table, and leaves it again when repeated,
  exactly when the MERGE statements are executed.**
-/

namespace PgSnowflakeCdc

open OrderedDict RowNumbering KeyedRows

/-- `_reconcile_table` on a store, when it returns normally: the store and the total. -/
def completeReconcile (P : Platform) (tie : Stmt → RowOrder) (batch : ℕ) (pgTable : String)
    (rows : List Row) (st : Store) : Option (Store × ℕ) :=
  match reconcileTable P batch pgTable rows with
  | .ok (stmts, total) =>
    if ∀ stmt ∈ stmts, stmt.Succeeds P then some (execute P tie stmts st, total) else none
  | .error _ => none

/-- What the selected rows mean at key `k`: the row of the key is assigned, if there is one. -/
def selectedOp (P : Platform) (sfCurrent : String) (rows : List Row) (k : List PyVal) :
    RowOp String PyVal :=
  match rows.find? fun row => rowKey P sfCurrent row = k with
  | some row => .assign (assignment P sfCurrent row)
  | none => .keep

section Selected

variable {P : Platform} {sfCurrent : String} {rows : List Row}

theorem selectedOp_of_mem (hkeys : (rows.map (rowKey P sfCurrent)).Nodup) {row : Row}
    (hrow : row ∈ rows) :
    selectedOp P sfCurrent rows (rowKey P sfCurrent row) = .assign (assignment P sfCurrent row) := by
  rw [selectedOp, find?_key_of_mem _ hkeys hrow]

theorem selectedOp_of_free {k : List PyVal} (hfree : ∀ row ∈ rows, rowKey P sfCurrent row ≠ k) :
    selectedOp P sfCurrent rows k = .keep := by
  have hnone : (rows.find? fun row => rowKey P sfCurrent row = k) = none := by
    rw [List.find?_eq_none]
    intro row hrow
    simpa using hfree row hrow
  rw [selectedOp, hnone]

/-- The order of the rows makes no difference. -/
theorem selectedOp_perm (hkeys : (rows.map (rowKey P sfCurrent)).Nodup) {rows' : List Row}
    (hperm : rows'.Perm rows) (k : List PyVal) :
    selectedOp P sfCurrent rows' k = selectedOp P sfCurrent rows k := by
  have hkeys' : (rows'.map (rowKey P sfCurrent)).Nodup := (hperm.map _).nodup_iff.mpr hkeys
  by_cases hex : ∃ row ∈ rows, rowKey P sfCurrent row = k
  · obtain ⟨row, hrow, rfl⟩ := hex
    rw [selectedOp_of_mem hkeys hrow, selectedOp_of_mem hkeys' (hperm.mem_iff.mpr hrow)]
  · push Not at hex
    rw [selectedOp_of_free hex, selectedOp_of_free fun row hrow => hex row (hperm.mem_iff.mp hrow)]

/-- Doing it twice is doing it once. -/
theorem selectedOp_twice (k : List PyVal) (rs : List SfRow) :
    (selectedOp P sfCurrent rows k).act .none ((selectedOp P sfCurrent rows k).act .none rs) =
      (selectedOp P sfCurrent rows k).act .none rs := by
  cases selectedOp P sfCurrent rows k with
  | keep => rfl
  | assign a => exact act_assign_absorb .none (fun _ h => h) rs
  | remove => rfl

end Selected

/-! ### The loop -/

/-- The loop counts every row once. -/
theorem reconcileLoop_total (P : Platform) (sfCurrent : String) {batch : ℕ} (hbatch : 1 ≤ batch)
    (rows : List Row) : (reconcileLoop P sfCurrent batch rows).2 = rows.length := by
  induction rows using reconcileLoop.induct P sfCurrent batch with
  | case1 rows hchunk =>
    have hnil : rows = [] := (List.take_eq_nil_iff.mp hchunk).resolve_left (by omega)
    subst hnil
    rw [reconcileLoop]
    split
    · rfl
    · next heq => rw [hchunk] at heq; cases heq
  | case2 rows first rest hchunk ih =>
    rw [reconcileLoop]
    split
    · next hnil => rw [hchunk] at hnil; cases hnil
    · next first' rest' heq =>
      have hlen : (rows.take batch).length + (rows.drop batch).length = rows.length := by
        rw [← List.length_append, List.take_append_drop]
      show (first' :: rest').length + (reconcileLoop P sfCurrent batch (rows.drop batch)).2 = _
      rw [ih, ← heq]
      exact hlen

section Loop

variable {P : Platform} {pgTable sfCurrent sfHistory : String} {columns : List String}
  {batch : ℕ} {rows : List Row} (hlisted : ∀ row ∈ rows, row.keys = columns)
  (hnonnull : ∀ row ∈ rows, KeyNonNull P sfCurrent row)

include hlisted hnonnull

/-- **When the MERGE of a chunk is executed.** -/
theorem chunkMerge_succeeds_iff {first : Row} {rest : List Row} (hsub : first :: rest ⊆ rows) :
    (chunkMerge P sfCurrent first rest).Succeeds P ↔
      ((∀ c ∈ columns, pgColToSf P c ≠ "_LOADED_AT") ∧ ∃ c ∈ columns, pgColToSf P c ∉ pkOf sfCurrent) ∧
        ∀ row ∈ first :: rest, RowBinds P (rowToSf P row) := by
  have hfirst : first ∈ rows := hsub List.mem_cons_self
  have hcols : ∀ row ∈ (first :: rest).map (rowToSf P), ∀ c,
      c ∈ row.keys ↔ c ∈ (rowToSf P first).keys := by
    intro converted hconverted c
    obtain ⟨row, hrow, rfl⟩ := List.mem_map.mp hconverted
    rw [mem_keys_rowToSf, mem_keys_rowToSf, hlisted row (hsub hrow), hlisted first hfirst]
  rw [chunkMerge, Stmt.Succeeds, merge_compiles_iff (hlisted first hfirst) (hnonnull first hfirst),
    Stmt.Binds, bindable_params_iff P hcols, List.forall_mem_map]

/-- Every row is in the chunk of some statement. -/
theorem exists_chunk_of_mem (hbatch : 1 ≤ batch) {row : Row} (hrow : row ∈ rows) :
    ∃ first rest, first :: rest ⊆ rows ∧ row ∈ first :: rest ∧
      chunkMerge P sfCurrent first rest ∈ (reconcileLoop P sfCurrent batch rows).1 := by
  induction rows using reconcileLoop.induct P sfCurrent batch with
  | case1 rows hchunk =>
    have hnil : rows = [] := (List.take_eq_nil_iff.mp hchunk).resolve_left (by omega)
    rw [hnil] at hrow
    cases hrow
  | case2 rows first rest hchunk ih =>
    rw [reconcileLoop]
    split
    · next hnil => rw [hchunk] at hnil; cases hnil
    · next first' rest' heq =>
      have hsplit := List.take_append_drop batch rows
      rw [← hsplit, List.mem_append, heq] at hrow
      rcases hrow with hrow | hrow
      · exact ⟨first', rest', heq ▸ List.take_subset _ _, hrow, List.mem_cons_self⟩
      · have hdrop : ∀ r ∈ rows.drop batch, r ∈ rows := fun r hr => List.mem_of_mem_drop hr
        obtain ⟨first'', rest'', hsub, hmem, hstmt⟩ :=
          ih (fun r hr => hlisted r (hdrop r hr)) (fun r hr => hnonnull r (hdrop r hr)) hrow
        exact ⟨first'', rest'', fun r hr => hdrop r (hsub hr), hmem, List.mem_cons_of_mem _ hstmt⟩

/-- **When the statements of the loop are executed.** -/
theorem reconcileLoop_succeeds_iff (hbatch : 1 ≤ batch) :
    (∀ stmt ∈ (reconcileLoop P sfCurrent batch rows).1, stmt.Succeeds P) ↔
      (rows ≠ [] → (∀ c ∈ columns, pgColToSf P c ≠ "_LOADED_AT") ∧
        ∃ c ∈ columns, pgColToSf P c ∉ pkOf sfCurrent) ∧
        ∀ row ∈ rows, RowBinds P (rowToSf P row) := by
  have hchunk := fun {first : Row} {rest : List Row} => @chunkMerge_succeeds_iff P sfCurrent columns
    rows hlisted hnonnull first rest
  constructor
  · intro hsucceeds
    refine ⟨fun hne => ?_, fun row hrow => ?_⟩
    · obtain ⟨row, hrow⟩ := List.exists_mem_of_ne_nil _ hne
      obtain ⟨first, rest, hsub, -, hstmt⟩ := exists_chunk_of_mem hlisted hnonnull hbatch hrow
      exact ((hchunk hsub).mp (hsucceeds _ hstmt)).1
    · obtain ⟨first, rest, hsub, hmem, hstmt⟩ := exists_chunk_of_mem hlisted hnonnull hbatch hrow
      exact ((hchunk hsub).mp (hsucceeds _ hstmt)).2 row hmem
  · rintro ⟨hcols, hbinds⟩ stmt hstmt
    obtain ⟨first, rest, hsub, rfl⟩ := mem_reconcileLoop hstmt
    exact (hchunk hsub).mpr ⟨hcols (List.ne_nil_of_mem (hsub List.mem_cons_self)),
      fun row hrow => hbinds row (hsub hrow)⟩

/-- **The loop at a key**, whatever the size of its chunks. -/
theorem rowsAt_reconcileLoop (hkeys : (rows.map (rowKey P sfCurrent)).Nodup) (hbatch : 1 ≤ batch)
    (tie : Stmt → RowOrder) (st : Store) (k : List PyVal) :
    rowsAt (keyOf (pkOf sfCurrent)) k
        (execute P tie (reconcileLoop P sfCurrent batch rows).1 st sfCurrent) =
      (selectedOp P sfCurrent rows k).act .none (rowsAt (keyOf (pkOf sfCurrent)) k (st sfCurrent)) := by
  have hkeyed : ∀ stmt ∈ (reconcileLoop P sfCurrent batch rows).1, stmt.KeyedOn P sfCurrent := by
    intro stmt hstmt
    obtain ⟨first, rest, hsub, rfl⟩ := mem_reconcileLoop hstmt
    exact keyedOn_chunkMerge (fun row hrow => hnonnull row (hsub hrow)) sfCurrent
  rw [rowsAt_execute hkeyed]
  by_cases hex : ∃ row ∈ rows, rowKey P sfCurrent row = k
  · obtain ⟨row, hrow, rfl⟩ := hex
    rw [selectedOp_of_mem hkeys hrow, runOps_reconcileLoop hlisted tie hbatch hkeys hrow rfl]
  · push Not at hex
    rw [selectedOp_of_free hex, runOps_reconcileLoop_free hlisted tie hex]
    rfl

end Loop

/-! ### Runs -/

/-- Some run of the script on these rows, in any order, with any batch size and any row numbering,
returns normally and leaves this store and this total. -/
def ReconcileRun (P : Platform) (pgTable : String) (rows : List Row) (st after : Store) (total : ℕ) :
    Prop :=
  ∃ (batch : ℕ) (rows' : List Row) (tie : Stmt → RowOrder), 1 ≤ batch ∧ rows'.Perm rows ∧
    completeReconcile P tie batch pgTable rows' st = some (after, total)

/-- What the script is to leave: one row for each selected row, with its key and its converted values,
and under every other key what was there. -/
structure Reconciled (P : Platform) (sfCurrent : String) (rows : List Row) (before after : Table) :
    Prop where
  selected : ∀ row ∈ rows, ∃ r,
    rowsAt (keyOf (pkOf sfCurrent)) (rowKey P sfCurrent row) after = [r] ∧
      ∀ c ∈ (rowToSf P row).keys, r c = imageRow P sfCurrent row c
  others : ∀ k, (∀ row ∈ rows, rowKey P sfCurrent row ≠ k) →
    rowsAt (keyOf (pkOf sfCurrent)) k after = rowsAt (keyOf (pkOf sfCurrent)) k before

/-- The batching of the script does not show. -/
structure BatchingIrrelevant (P : Platform) (pgTable sfCurrent : String) (rows : List Row) (st : Store) :
    Prop where
  returns : ∀ (batch : ℕ) (rows' : List Row) (tie : Stmt → RowOrder), 1 ≤ batch → rows'.Perm rows →
    ∃ result, completeReconcile P tie batch pgTable rows' st = some result
  leaves : ∀ after total, ReconcileRun P pgTable rows st after total →
    total = rows.length ∧ Reconciled P sfCurrent rows (st sfCurrent) (after sfCurrent)
  same : ∀ after total after' total', ReconcileRun P pgTable rows st after total →
    ReconcileRun P pgTable rows st after' total' → (after' sfCurrent).Perm (after sfCurrent)
  twice : ∀ after total after' total', ReconcileRun P pgTable rows st after total →
    ReconcileRun P pgTable rows after after' total' → (after' sfCurrent).Perm (after sfCurrent)

section Runs

variable {P : Platform} {pgTable sfCurrent sfHistory : String}
  (hmap : tableMap.get? pgTable = some (sfCurrent, sfHistory)) {columns : List String}
  {rows : List Row} (hlisted : ∀ row ∈ rows, row.keys = columns)
  (hnonnull : ∀ row ∈ rows, KeyNonNull P sfCurrent row)

include hmap hlisted hnonnull

/-- **A run returns normally exactly when its statements are executed.** -/
theorem completeReconcile_eq {batch : ℕ} (hbatch : 1 ≤ batch) (tie : Stmt → RowOrder) {rows' : List Row}
    (hperm : rows'.Perm rows) (st : Store) :
    completeReconcile P tie batch pgTable rows' st =
      if (rows ≠ [] → (∀ c ∈ columns, pgColToSf P c ≠ "_LOADED_AT") ∧
          ∃ c ∈ columns, pgColToSf P c ∉ pkOf sfCurrent) ∧ ∀ row ∈ rows, RowBinds P (rowToSf P row) then
        some (execute P tie (reconcileLoop P sfCurrent batch rows').1 st, rows.length)
      else none := by
  have hsucceeds := reconcileLoop_succeeds_iff (fun row hrow => hlisted row (hperm.mem_iff.mp hrow))
    (fun row hrow => hnonnull row (hperm.mem_iff.mp hrow)) hbatch
  have htotal : (reconcileLoop P sfCurrent batch rows').2 = rows.length :=
    (reconcileLoop_total P sfCurrent hbatch rows').trans hperm.length_eq
  have hne : rows' ≠ [] ↔ rows ≠ [] := by
    rw [Ne, Ne, ← List.length_eq_zero_iff, ← List.length_eq_zero_iff, hperm.length_eq]
  have hsame : (∀ row ∈ rows', RowBinds P (rowToSf P row)) ↔ ∀ row ∈ rows, RowBinds P (rowToSf P row) :=
    forall_congr' fun row => by rw [hperm.mem_iff]
  rw [hne, hsame] at hsucceeds
  rw [completeReconcile, reconcileTable, hmap]
  dsimp only
  rw [if_congr hsucceeds rfl rfl, htotal]

variable (hkeys : (rows.map (rowKey P sfCurrent)).Nodup) {st after : Store} {total : ℕ}
  (hrun : ReconcileRun P pgTable rows st after total)

include hkeys hrun

/-- **Every run does the same at every key.** -/
theorem rowsAt_reconcileRun :
    total = rows.length ∧ ∀ k, rowsAt (keyOf (pkOf sfCurrent)) k (after sfCurrent) =
      (selectedOp P sfCurrent rows k).act .none (rowsAt (keyOf (pkOf sfCurrent)) k (st sfCurrent)) := by
  obtain ⟨batch, rows', tie, hbatch, hperm, hresult⟩ := hrun
  rw [completeReconcile_eq hmap hlisted hnonnull hbatch tie hperm] at hresult
  split at hresult
  · have hpair := Option.some.inj hresult
    obtain ⟨rfl, rfl⟩ := Prod.mk.inj hpair
    refine ⟨rfl, fun k => ?_⟩
    rw [rowsAt_reconcileLoop (fun row hrow => hlisted row (hperm.mem_iff.mp hrow))
      (fun row hrow => hnonnull row (hperm.mem_iff.mp hrow)) ((hperm.map _).nodup_iff.mpr hkeys)
      hbatch, selectedOp_perm hkeys hperm]
  · cases hresult

/-- A run leaves the selected rows and nothing else new. -/
theorem reconciled_of_run (hunique : UniqueKeys (keyOf (pkOf sfCurrent)) (st sfCurrent)) :
    Reconciled P sfCurrent rows (st sfCurrent) (after sfCurrent) := by
  obtain ⟨-, hrows⟩ := rowsAt_reconcileRun hmap hlisted hnonnull hkeys hrun
  constructor
  · intro row hrow
    have hkey := hrows (rowKey P sfCurrent row)
    rw [selectedOp_of_mem hkeys hrow] at hkey
    -- the key has one row or none before, and one afterwards
    have hle := (uniqueKeys_iff (keyOf (pkOf sfCurrent))).mp hunique (rowKey P sfCurrent row)
    have hone := length_act_le_one .none (.assign (assignment P sfCurrent row)) hle
    rw [← hkey] at hone
    have hne : rowsAt (keyOf (pkOf sfCurrent)) (rowKey P sfCurrent row) (after sfCurrent) ≠ [] := by
      rw [hkey]
      exact act_assign_ne_nil _ _ _
    obtain ⟨r, hr⟩ := List.length_eq_one_iff.mp
      (le_antisymm hone (List.length_pos_iff.mpr hne))
    refine ⟨r, hr, fun c hc => ?_⟩
    have hmem : r ∈ (RowOp.assign (assignment P sfCurrent row)).act .none
        (rowsAt (keyOf (pkOf sfCurrent)) (rowKey P sfCurrent row) (st sfCurrent)) := by
      rw [← hkey, hr]
      exact List.mem_singleton_self r
    obtain ⟨r₀, -, rfl⟩ := List.mem_map.mp hmem
    rw [overlay, assignment_eq, if_pos hc, Option.getD_some]
  · intro k hfree
    rw [hrows k, selectedOp_of_free hfree]
    rfl

end Runs

/-- **Reconciliation does not depend on its batching exactly when its statements are executed.**  For
selected rows with one column list and distinct non-null keys and a table with unique keys: every run
returns the number of rows and leaves each of them, and under other keys what was there; all runs leave
the same rows, and a second run changes nothing; if and only if there are no rows, or no column is called
`_LOADED_AT` and some column is not a key, and the converted values of all rows can be bound. -/
theorem reconcile_batching_iff (P : Platform) {pgTable sfCurrent sfHistory : String}
    (hmap : tableMap.get? pgTable = some (sfCurrent, sfHistory)) {columns : List String}
    {rows : List Row} (hlisted : ∀ row ∈ rows, row.keys = columns)
    (hnonnull : ∀ row ∈ rows, KeyNonNull P sfCurrent row)
    (hkeys : (rows.map (rowKey P sfCurrent)).Nodup) (st : Store)
    (hunique : UniqueKeys (keyOf (pkOf sfCurrent)) (st sfCurrent)) :
    BatchingIrrelevant P pgTable sfCurrent rows st ↔
      (rows ≠ [] → (∀ c ∈ columns, pgColToSf P c ≠ "_LOADED_AT") ∧
        ∃ c ∈ columns, pgColToSf P c ∉ pkOf sfCurrent) ∧
        ∀ row ∈ rows, RowBinds P (rowToSf P row) := by
  have hrowsAt := fun {st after : Store} {total : ℕ} =>
    @rowsAt_reconcileRun P pgTable sfCurrent sfHistory hmap columns rows hlisted hnonnull hkeys st after
      total
  constructor
  · intro hirrelevant
    obtain ⟨result, hresult⟩ := hirrelevant.returns 1 rows lastFirstTie (le_refl 1) (List.Perm.refl _)
    rw [completeReconcile_eq hmap hlisted hnonnull (le_refl 1) lastFirstTie (List.Perm.refl _)] at hresult
    split at hresult
    · next h => exact h
    · cases hresult
  · intro hsucceeds
    constructor
    · intro batch rows' tie hbatch hperm
      rw [completeReconcile_eq hmap hlisted hnonnull hbatch tie hperm, if_pos hsucceeds]
      exact ⟨_, rfl⟩
    · intro after total hrun
      exact ⟨(hrowsAt hrun).1, reconciled_of_run hmap hlisted hnonnull hkeys hrun hunique⟩
    · intro after total after' total' hrun hrun'
      apply perm_of_rowsAt (keyOf (pkOf sfCurrent))
      intro k
      rw [(hrowsAt hrun).2, (hrowsAt hrun').2]
    · intro after total after' total' hrun hrun'
      apply perm_of_rowsAt (keyOf (pkOf sfCurrent))
      intro k
      rw [(hrowsAt hrun').2, (hrowsAt hrun).2, selectedOp_twice]

/-- Two selected devices, reconciled with an empty table. -/
theorem reconcile_batching_devices :
    BatchingIrrelevant .ascii "customer_devices" "CUSTOMER_DEVICES"
      [deviceRow "1" "tv", deviceRow "2" "radio"] (fun _ => []) :=
  (reconcile_batching_iff .ascii
    (show tableMap.get? "customer_devices" = some ("CUSTOMER_DEVICES", "CUSTOMER_DEVICES_HISTORY") by
      decide)
    (show ∀ row ∈ [deviceRow "1" "tv", deviceRow "2" "radio"], row.keys = ["id", "label"] by decide)
    (by decide +kernel) (by decide +kernel) (fun _ => []) List.nodup_nil).mpr (by decide +kernel)

/-- A device of a source table that has a load timestamp of its own. -/
def loadedRow : Row :=
  ⟨[("id", .int 1), ("updated_at", .other "2026-08-01 00:00:00"), ("_loaded_at", .none)], by simp⟩

/-- **A column called `_loaded_at` makes every MERGE fail.** -/
theorem reconcile_rejects_loaded_at :
    KeyNonNull .ascii "CUSTOMER_DEVICES" loadedRow ∧
      (completeReconcile .ascii lastFirstTie 500 "customer_devices" [loadedRow]
        (fun _ => [])).isNone = true ∧
      ¬ BatchingIrrelevant .ascii "customer_devices" "CUSTOMER_DEVICES" [loadedRow] (fun _ => []) := by
  have hnone : (completeReconcile .ascii lastFirstTie 500 "customer_devices" [loadedRow]
      (fun _ => [])).isNone = true := by
    decide +kernel
  refine ⟨by decide +kernel, hnone, fun h => ?_⟩
  obtain ⟨result, hresult⟩ := h.returns 500 [loadedRow] lastFirstTie (by decide) (List.Perm.refl _)
  rw [hresult] at hnone
  cases hnone

end PgSnowflakeCdc
