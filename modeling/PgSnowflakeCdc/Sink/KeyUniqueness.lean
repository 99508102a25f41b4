import PgSnowflakeCdc.Scripts.Reconcile
import PgSnowflakeCdc.Sink.Attempts

/-!
# Primary keys stay unique

Snowflake enforces no primary key.  Everything that writes a current-state table is a list of
statements that write it by its key columns, and such a statement files at most one row under a key
that had at most one (`KeyedRows.length_act_le_one`).

* `uniqueKeys_applyWrites` — write attempts keep the keys unique;
* `uniqueKeys_invariant` — the keys stay unique over any sequence of write attempts, complete or
  partial, and reconciliation MERGEs.
-/

namespace PgSnowflakeCdc

open RowNumbering KeyedRows

/-- Statements that write a table by key keep its keys unique. -/
theorem uniqueKeys_execute {P : Platform} {tie : Stmt → RowOrder} {t : String} {stmts : List Stmt}
    (hkeyed : ∀ stmt ∈ stmts, stmt.KeyedOn P t) {st : Store}
    (h : UniqueKeys (keyOf (pkOf t)) (st t)) :
    UniqueKeys (keyOf (pkOf t)) (execute P tie stmts st t) := by
  rw [uniqueKeys_iff] at h ⊢
  intro k
  rw [rowsAt_execute hkeyed]
  exact Replay.run_invariant (RowOp.act .none) (P := fun rows => rows.length ≤ 1) (h k)
    fun o _ rows hrows => length_act_le_one .none o hrows

/-- Attempts to write events with non-null keys, complete or not, keep the keys unique. -/
theorem uniqueKeys_applyWrites {P : Platform} {t : String} (ht : t ∈ pkCols.keys)
    {writes : List (List ChangeEvent × Attempt)} (hkeyed : ∀ w ∈ writes, ∀ e ∈ w.1, e.Keyed P)
    {st : Store} (h : UniqueKeys (keyOf (pkOf t)) (st t)) :
    UniqueKeys (keyOf (pkOf t)) (applyWrites P writes st t) := by
  refine Replay.run_invariant (applyWrite P)
    (P := fun st : Store => UniqueKeys (keyOf (pkOf t)) (st t)) h ?_
  intro w hw st hst
  refine uniqueKeys_execute ?_ hst
  intro stmt hstmt
  exact keyedOn_writeBatch (hkeyed w hw) ht stmt (w.2.executed_subset P w.1 hstmt)

/-- Something that writes to the target schema. -/
inductive WriteAction where
  /-- One attempt of the sink to write a batch. -/
  | attempt (events : List ChangeEvent) (a : Attempt) : WriteAction
  /-- The `i`-th MERGE of a run of `reconcile.py` on a table, its chunks being of size `batch`. -/
  | reconcile (pgTable : String) (rows : List Row) (batch i : ℕ) (tie : Stmt → RowOrder) : WriteAction

/-- The statements an action executes. -/
def WriteAction.statements (P : Platform) : WriteAction → List Stmt
  | .attempt events a => a.executed P events
  | .reconcile pgTable rows batch i _ =>
    match reconcileTable P batch pgTable rows with
    | .ok (stmts, _) => (stmts[i]?).toList
    | .error _ => []

def WriteAction.tie : WriteAction → Stmt → RowOrder
  | .attempt _ a => a.tie
  | .reconcile _ _ _ _ tie => tie

def WriteAction.perform (P : Platform) (action : WriteAction) (st : Store) : Store :=
  execute P action.tie (action.statements P) st

/-- The rows the action merges have non-null keys. -/
def WriteAction.Keyed (P : Platform) : WriteAction → Prop
  | .attempt events _ => ∀ e ∈ events, e.Keyed P
  | .reconcile pgTable rows _ _ _ =>
    ∀ target ∈ tableMap.get? pgTable, ∀ row ∈ rows, KeyNonNull P target.1 row

instance (P : Platform) : DecidablePred (WriteAction.Keyed P)
  | .attempt _ _ => inferInstanceAs (Decidable (∀ _ ∈ _, _))
  | .reconcile _ _ _ _ _ => inferInstanceAs (Decidable (∀ _ ∈ _, _))

theorem WriteAction.keyedOn {P : Platform} {action : WriteAction} (h : action.Keyed P) {t : String}
    (ht : t ∈ pkCols.keys) : ∀ stmt ∈ action.statements P, stmt.KeyedOn P t := by
  cases action with
  | attempt events a =>
    intro stmt hstmt
    exact keyedOn_writeBatch h ht stmt (a.executed_subset P events hstmt)
  | reconcile pgTable rows batch i tie =>
    intro stmt hstmt
    rw [statements, reconcileTable] at hstmt
    cases hmap : tableMap.get? pgTable with
    | none => simp [hmap] at hstmt
    | some target =>
      simp only [hmap, Option.mem_toList] at hstmt
      obtain ⟨first, rest, hsub, rfl⟩ := mem_reconcileLoop (List.mem_of_getElem? hstmt)
      exact keyedOn_chunkMerge (fun row hrow => h target hmap row (hsub hrow)) t

/-- **Primary-key uniqueness is an invariant.**  A current-state table with at most one row per key
still has at most one after any sequence of write attempts of the sink (any events with non-null
keys, any prefix of their statements, any row order) and MERGEs of `reconcile.py`. -/
theorem uniqueKeys_invariant (P : Platform) (actions : List WriteAction)
    (hkeyed : ∀ action ∈ actions, action.Keyed P) {t : String} (ht : t ∈ pkCols.keys) (st : Store)
    (h : UniqueKeys (keyOf (pkOf t)) (st t)) :
    UniqueKeys (keyOf (pkOf t)) (Replay.run (WriteAction.perform P) actions st t) :=
  Replay.run_invariant _ (P := fun st : Store => UniqueKeys (keyOf (pkOf t)) (st t)) h
    fun action haction _ hst => uniqueKeys_execute (action.keyedOn (hkeyed action haction) ht) hst

/-- A batch with a repeated key fails behind its MERGE and is retried; then its row is reconciled. -/
def sampleActions : List WriteAction :=
  let events := [deviceEvent .c (deviceRow "1" "tv") 10 12, deviceEvent .u (deviceRow "1" "hi-fi") 11 12]
  [.attempt events ⟨some 1, fun _ => pickFirst 0⟩, .attempt events ⟨none, fun _ => pickFirst 1⟩,
    .reconcile "customer_devices" [⟨[("id", .int 1), ("label", .str "radio")], by decide⟩] 500 0
      fun _ => pickFirst 0]

theorem uniqueKeys_invariant_sampleActions :
    UniqueKeys (keyOf (pkOf "CUSTOMER_DEVICES"))
      (Replay.run (WriteAction.perform .ascii) sampleActions (fun _ => []) "CUSTOMER_DEVICES") :=
  uniqueKeys_invariant .ascii sampleActions (by decide) (by decide) (fun _ => []) List.nodup_nil

end PgSnowflakeCdc
