import PgSnowflakeCdc.Sink.WriteBatch

/-!
# Re-delivery and partial writes

The statements of a batch are not one transaction.  A write may stop after any prefix of them and
be started again, by the retry loop or after a restart, from that batch or from an earlier one.

* `redelivery_converges` — the current-state tables do not remember any of it.

The argument is made at one key of one table, where the statements are row operations and
`KeyedRows.absorbs` applies.
-/

namespace PgSnowflakeCdc

open KeyedRows RowNumbering Replay

/-- The statements of each batch of a list. -/
def batchStatements (P : Platform) (batches : List (List ChangeEvent)) : List (List Stmt) :=
  batches.map fun events => (writeBatch P events).1

/-- The store after some interrupted passes over the batches, the last of which stopped in batch
`m`. -/
abbrev InterruptedWrites (P : Platform) (tie : Stmt → RowOrder) (batches : List (List ChangeEvent)) :
    Store → ℕ → Store → Prop :=
  Interrupted (fun stmt => stmt.apply P (tie stmt)) (batchStatements P batches)

theorem keyedOn_batchStatements {P : Platform} {batches : List (List ChangeEvent)}
    (hkey : ∀ events ∈ batches, ∀ e ∈ events, e.Keyed P) {t : String} (ht : t ∈ pkCols.keys) :
    ∀ stmt ∈ (batchStatements P batches).flatten, stmt.KeyedOn P t := by
  intro stmt hstmt
  obtain ⟨stmts, hstmts, hmem⟩ := List.mem_flatten.mp hstmt
  obtain ⟨events, hevents, rfl⟩ := List.mem_map.mp hstmts
  exact keyedOn_writeBatch (hkey events hevents) ht stmt hmem

/-- **Re-delivery and partial writes converge.**  However often the writes were interrupted and
resumed from an earlier batch, completing them from any permitted batch leaves each current-state
table with the rows of one uninterrupted run. -/
theorem redelivery_converges (P : Platform) (tie : Stmt → RowOrder)
    (batches : List (List ChangeEvent)) (hkey : ∀ events ∈ batches, ∀ e ∈ events, e.Keyed P)
    {st₀ st : Store} {m : ℕ} (h : InterruptedWrites P tie batches st₀ m st) {j : ℕ} (hj : j ≤ m)
    {t : String} (ht : t ∈ pkCols.keys) :
    (execute P tie (batchStatements P (batches.drop j)).flatten st t).Perm
      (execute P tie (batchStatements P batches).flatten st₀ t) := by
  apply perm_of_rowsAt (keyOf (pkOf t))
  intro k
  have hkeyed := keyedOn_batchStatements hkey ht
  have hview : Interrupted (RowOp.act .none)
      ((batchStatements P batches).map (List.map (Stmt.opAt P tie t k)))
      (rowsAt (keyOf (pkOf t)) k (st₀ t)) m (rowsAt (keyOf (pkOf t)) k (st t)) :=
    h.hom (fun st : Store => rowsAt (keyOf (pkOf t)) k (st t)) (Stmt.opAt P tie t k)
      (fun stmt hstmt st => rowsAt_apply (hkeyed stmt hstmt) k st)
  have hdrop : batchStatements P (batches.drop j) = (batchStatements P batches).drop j :=
    List.map_drop
  have hrest : ∀ stmt ∈ (batchStatements P (batches.drop j)).flatten, stmt.KeyedOn P t :=
    keyedOn_batchStatements (fun events he => hkey events (List.mem_of_mem_drop he)) ht
  rw [rowsAt_execute hrest, rowsAt_execute hkeyed, hdrop, List.map_flatten, List.map_flatten,
    List.map_drop]
  exact .of_eq (resume_converges _ (absorbs PyVal.none) hview hj)

/-- Two batches: the second deletes what the first inserted and has another column list. -/
def sampleBatches : List (List ChangeEvent) :=
  [[deviceEvent .c (deviceRow "1" "tv") 10 12],
    [deviceEvent .d (deviceRow "1" "tv") 20 22,
      deviceEvent .u ⟨[("id", .str "2"), ("deviceId", .str "d9")], by decide⟩ 21 22]]

/-- The first run stops behind the MERGE of the second batch; writing resumes with the first. -/
theorem redelivery_converges_sampleBatches :
    (execute .ascii (fun _ => lastFirst 0) (batchStatements .ascii sampleBatches).flatten
      (execute .ascii (fun _ => lastFirst 0) (pass (batchStatements .ascii sampleBatches) 0 1 1)
        (fun _ => [])) "CUSTOMER_DEVICES").Perm
      (execute .ascii (fun _ => lastFirst 0) (batchStatements .ascii sampleBatches).flatten
        (fun _ => []) "CUSTOMER_DEVICES") :=
  redelivery_converges .ascii (fun _ => lastFirst 0) sampleBatches (by decide)
    (.stop 0 1 1 .start (Nat.le_refl 0) (Nat.zero_le 1)) (j := 0) (Nat.zero_le 1) (by decide)

end PgSnowflakeCdc
