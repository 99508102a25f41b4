import PgSnowflakeCdc.Sink.Buffer
import PgSnowflakeCdc.Sink.Sequential

/-!
# Write attempts on a store

A write attempt executes a prefix of the statements of its batch; when it fails, the retry loop
starts the batch again.

* `applyWrites` — the store after some write attempts;
* `CompletedFlushes` — attempts as flushes make them that succeed in the end;
* `rowsAt_completedFlush` — one flush at a key: the changes of its batch, once, when the batch
  touches no key twice;
* `applyWrites_perm_changes` — **completed flushes apply the written changes in order.**
-/

namespace PgSnowflakeCdc

open OrderedDict RowNumbering KeyedRows

/-- The statements of an attempt, on a store. -/
def applyWrite (P : Platform) (w : List ChangeEvent × Attempt) (st : Store) : Store :=
  execute P w.2.tie (w.2.executed P w.1) st

/-- The store after some attempts. -/
def applyWrites (P : Platform) (writes : List (List ChangeEvent × Attempt)) (st : Store) : Store :=
  Replay.run (applyWrite P) writes st

theorem applyWrites_append (P : Platform) (xs ys : List (List ChangeEvent × Attempt)) (st : Store) :
    applyWrites P (xs ++ ys) st = applyWrites P ys (applyWrites P xs st) :=
  Replay.run_append _ xs ys st

/-- Attempts as flushes make them that succeed in the end: some failed attempts at a batch and then a
successful one, batch after batch. -/
inductive CompletedFlushes : List (List ChangeEvent × Attempt) → Prop
  | nil : CompletedFlushes []
  | flush {writes : List (List ChangeEvent × Attempt)} (h : CompletedFlushes writes)
      (batch : List ChangeEvent) {failed : List Attempt} {a : Attempt}
      (hfailed : ∀ f ∈ failed, f.succeeded = false) (ha : a.succeeded = true) :
      CompletedFlushes (writes ++ (failed ++ [a]).map fun a => (batch, a))

/-- A call of the sink whose attempts do not all fail makes no attempt or completes a flush. -/
theorem CompletedFlushes.call {cfg : Config} (hretries : 1 ≤ cfg.maxRetries) {sink : SnowflakeSink}
    {writes : List (List ChangeEvent × Attempt)} (h : CompletedFlushes writes) (c : SinkCall)
    (hok : ¬ SnowflakeSink.AllAttemptsFail cfg c.env) :
    CompletedFlushes (writes ++ (c.perform cfg sink).writes) := by
  have hflush : ∀ (sink : SnowflakeSink) (env : CallEnv),
      ¬ SnowflakeSink.AllAttemptsFail cfg env →
      CompletedFlushes (writes ++ (sink.flush cfg env).writes) := by
    intro sink env hok
    by_cases hempty : sink.buffer = []
    · rw [sink.flush_empty cfg env hempty]
      rwa [List.append_nil]
    · rcases sink.flush_spec cfg env hretries hempty with ⟨failed, a, hfs, ha, hres⟩ |
        ⟨failed, -, hres⟩
      · rw [hres]
        exact .flush h sink.buffer hfs ha
      · have hraise : (sink.flush cfg env).result = .error .writeFailed := by rw [hres]
        exact absurd ((sink.flush_error_iff cfg env).mp hraise).2 hok
  have hnone : CompletedFlushes (writes ++ []) := by rwa [List.append_nil]
  cases c with
  | flush env => exact hflush sink env hok
  | publish env event =>
    rw [SinkCall.perform]
    by_cases hmapped : IsMapped event.table
    · rcases SnowflakeSink.publish_mapped cfg sink env hmapped with hpub | ⟨hpub, -⟩
      · rw [hpub]
        exact hflush _ env hok
      · rw [hpub]
        exact hnone
    · rw [SnowflakeSink.publish_unmapped _ _ _ hmapped]
      exact hnone

/-- No key of the table is touched twice. -/
def TouchedOnce (P : Platform) (pgTable sfCurrent : String) (batch : List ChangeEvent) : Prop :=
  ((batch.filter fun e => normalizePgTable e.table = pgTable).map (changeKey P sfCurrent)).Nodup

instance (P : Platform) (pgTable sfCurrent : String) (batch : List ChangeEvent) :
    Decidable (TouchedOnce P pgTable sfCurrent batch) :=
  inferInstanceAs (Decidable (List.Nodup _))

/-! ### The row order of a MERGE without repeated keys -/

/-- What a MERGE does at a key is decided by which row of the key survives. -/
theorem opAt_congr_of_keepsLast {P : Platform} {tie tie' : Stmt → RowOrder} {stmt : Stmt}
    (h : stmt.KeepsLast P (tie stmt)) (h' : stmt.KeepsLast P (tie' stmt)) (t : String)
    (k : List PyVal) : stmt.opAt P tie t k = stmt.opAt P tie' t k := by
  cases stmt with
  | merge sfTable pk allCols rows =>
    rw [Stmt.opAt, Stmt.opAt, mergeOp, mergeOp, h k, h' k]
  | delete sfTable pk key => rfl
  | insert sfTable allCols rows => rfl

section Batch

variable {P : Platform} {pgTable sfCurrent sfHistory : String} {columns : List String}

/-- Without repeated keys the MERGE keeps the last row of every key in any row order. -/
theorem keepsLast_of_touchedOnce (hpk : pkOf sfCurrent ≠ []) {events : List ChangeEvent}
    (h : ∀ e ∈ events, e.OfTable P pgTable sfCurrent columns)
    (hn : (events.map (changeKey P sfCurrent)).Nodup) (o : RowOrder) :
    ∀ stmt ∈ writeCurrent P sfCurrent events, stmt.KeepsLast P o := by
  intro stmt hstmt
  rw [writeCurrent_eq, List.mem_append] at hstmt
  rcases hstmt with hstmt | hstmt
  · have hups : ∀ e ∈ events.filter (·.isUpsert), e.OfTable P pgTable sfCurrent columns :=
      fun e he => h e (List.mem_of_mem_filter he)
    have hup : ∀ e ∈ events.filter (·.isUpsert), e.isUpsert = true :=
      fun e he => (List.mem_filter.mp he).2
    have hkeys : ((events.filter (·.isUpsert)).map (changeKey P sfCurrent)).Nodup :=
      hn.sublist (List.filter_sublist.map _)
    by_cases hne : events.filter (·.isUpsert) = []
    · rw [hne] at hstmt
      exact absurd hstmt List.not_mem_nil
    · obtain ⟨allCols, rows, hmerge, hsource, -⟩ := mergeCurrent_images hpk hne hups hup
      rw [hmerge, List.mem_singleton] at hstmt
      subst hstmt
      show RowNumbering.KeepsLast (keyOf (pkOf sfCurrent)) o _
      rw [hsource]
      apply keepsLast_of_nodup
      have hsame : ((events.filter (·.isUpsert)).map fun e => imageRow P sfCurrent (imageOf e)).map
          (keyOf (pkOf sfCurrent)) = (events.filter (·.isUpsert)).map (changeKey P sfCurrent) := by
        rw [List.map_map]
        apply List.map_congr_left
        intro e he
        exact (changeKey_eq (hups e he).keyedIn).symm
      rw [hsame]
      exact hkeys
  · obtain ⟨e, -, rfl⟩ := List.mem_map.mp hstmt
    exact trivial

/-- At most one change of a key leaves no order to choose. -/
theorem deletesLast_of_nodup {events : List ChangeEvent}
    (hn : (events.map (changeKey P sfCurrent)).Nodup) : DeletesLast P sfCurrent events := by
  intro d hd hop e he
  have hmem := List.mem_of_getLast? he
  rw [List.mem_filter, decide_eq_true_eq] at hmem
  rw [List.inj_on_of_nodup_map hn hmem.1 hd hmem.2]
  exact hop

variable {batch : List ChangeEvent} (hmap : tableMap.get? pgTable = some (sfCurrent, sfHistory))
  (hmapped : ∀ e ∈ batch, IsMapped e.table) (hkey : ∀ e ∈ batch, e.Keyed P)
  (hgroup : ∀ e ∈ batch.filter fun e => normalizePgTable e.table = pgTable,
    e.OfTable P pgTable sfCurrent columns) (honce : TouchedOnce P pgTable sfCurrent batch)

include hmap hmapped hgroup honce

/-- The row orders of the attempts at such a batch make no difference. -/
theorem opAt_writeBatch_congr (tie tie' : Stmt → RowOrder) (k : List PyVal) :
    ∀ stmt ∈ (writeBatch P batch).1, stmt.opAt P tie sfCurrent k = stmt.opAt P tie' sfCurrent k := by
  intro stmt hstmt
  by_cases hname : stmt.table = sfCurrent
  · have hmem : stmt ∈ (writeBatch P batch).1.filter (·.table = sfCurrent) :=
      List.mem_filter.mpr ⟨hstmt, decide_eq_true hname⟩
    rw [filter_writeBatch hmap hmapped] at hmem
    have hkeeps := fun o => keepsLast_of_touchedOnce (pkOf_of_mapped hmap).1 hgroup honce o stmt hmem
    exact opAt_congr_of_keepsLast (hkeeps _) (hkeeps _) sfCurrent k
  · rw [opAt_of_table_ne hname, opAt_of_table_ne hname]

/-- The statements of such a batch at a key: its changes, one at a time. -/
theorem runOps_writeBatch_eq_changes (tie : Stmt → RowOrder) (k : List PyVal) (rows : List SfRow) :
    runOps .none ((writeBatch P batch).1.map (Stmt.opAt P tie sfCurrent k)) rows =
      runOps .none ((batch.filter fun e => normalizePgTable e.table = pgTable).map
        (changeOp P sfCurrent k)) rows := by
  have hpk := (pkOf_of_mapped hmap).1
  rw [← runOps_filter_table, filter_writeBatch hmap hmapped]
  exact runOps_writeCurrent_eq_changes hpk hgroup
    (fun stmt hstmt => keepsLast_of_touchedOnce hpk hgroup honce _ stmt hstmt)
    (deletesLast_of_nodup honce) k rows

include hkey

/-- One attempt at a key: row operations of the batch, whatever its row orders. -/
theorem rowsAt_applyWrite (a : Attempt) (tie : Stmt → RowOrder) (st : Store) (k : List PyVal) :
    rowsAt (keyOf (pkOf sfCurrent)) k (applyWrite P (batch, a) st sfCurrent) =
      runOps .none ((a.executed P batch).map (Stmt.opAt P tie sfCurrent k))
        (rowsAt (keyOf (pkOf sfCurrent)) k (st sfCurrent)) := by
  have hsub := a.executed_subset P batch
  have hkeyed : ∀ stmt ∈ a.executed P batch, stmt.KeyedOn P sfCurrent :=
    fun stmt hstmt => keyedOn_writeBatch hkey (pkOf_of_mapped hmap).2.1 stmt (hsub hstmt)
  rw [applyWrite, rowsAt_execute hkeyed]
  congr 1
  apply List.map_congr_left
  intro stmt hstmt
  exact opAt_writeBatch_congr hmap hmapped hgroup honce a.tie tie k stmt (hsub hstmt)

/-- **A flush that succeeds in the end, at a key**: what its failed attempts have executed is
executed again, and the changes of the batch are applied once. -/
theorem rowsAt_completedFlush (failed : List Attempt) {a : Attempt} (ha : a.succeeded = true)
    (st : Store) (k : List PyVal) :
    rowsAt (keyOf (pkOf sfCurrent)) k
        (applyWrites P ((failed ++ [a]).map fun a => (batch, a)) st sfCurrent) =
      runOps .none ((batch.filter fun e => normalizePgTable e.table = pgTable).map
        (changeOp P sfCurrent k)) (rowsAt (keyOf (pkOf sfCurrent)) k (st sfCurrent)) := by
  have hattempt := rowsAt_applyWrite hmap hmapped hkey hgroup honce
  rw [← runOps_writeBatch_eq_changes hmap hmapped hgroup honce a.tie]
  induction failed generalizing st with
  | nil =>
    have hfull : a.executed P batch = (writeBatch P batch).1 := by
      rw [Attempt.executed, Option.isNone_iff_eq_none.mp ha]
    rw [List.nil_append, List.map_singleton, ← hfull]
    exact hattempt a a.tie st k
  | cons f failed ih =>
    -- the statements `f` has executed are among those of the batch
    have hpart : (f.executed P batch).map (Stmt.opAt P a.tie sfCurrent k) ⊆
        (writeBatch P batch).1.map (Stmt.opAt P a.tie sfCurrent k) :=
      List.map_subset _ (f.executed_subset P batch)
    rw [List.cons_append, List.map_cons]
    show rowsAt _ k (applyWrites P _ (applyWrite P (batch, f) st) sfCurrent) = _
    rw [ih, hattempt f a.tie]
    exact absorbs PyVal.none _ _ _ hpart

end Batch

/-- **A flush of one change at a key** applies the change. -/
theorem rowsAt_flushOne {P : Platform} {pgTable sfCurrent sfHistory : String}
    (hmap : tableMap.get? pgTable = some (sfCurrent, sfHistory)) {columns : List String}
    {cfg : Config} {env : CallEnv} (hok : env.Succeeds cfg) {e : ChangeEvent}
    (he : e.OfTable P pgTable sfCurrent columns) (now : ℚ) (st : Store) (k : List PyVal) :
    rowsAt (keyOf (pkOf sfCurrent)) k
        (applyWrites P (SnowflakeSink.flush cfg ⟨[e.normalized], now⟩ env).writes st sfCurrent) =
      (changeOp P sfCurrent k e).act .none (rowsAt (keyOf (pkOf sfCurrent)) k (st sfCurrent)) := by
  have hsame : normalizePgTable e.normalized.table = pgTable :=
    (normalizePgTable_idem e.table).trans he.table
  have htable : e.normalized.OfTable P pgTable sfCurrent columns := ⟨hsame, he.image⟩
  have hgroup : [e.normalized].filter (fun e => normalizePgTable e.table = pgTable) =
      [e.normalized] := by
    rw [List.filter_cons_of_pos (by simpa using hsame), List.filter_nil]
  obtain ⟨-, ⟨hnil, -⟩ | ⟨failed, a, ha, hwrites⟩⟩ :=
    SnowflakeSink.flush_of_succeeds cfg ⟨[e.normalized], now⟩ env fun _ => hok
  · cases hnil
  · rw [hwrites, rowsAt_completedFlush hmap (List.forall_mem_singleton.mpr (htable.isMapped hmap))
      (List.forall_mem_singleton.mpr (htable.keyed hmap))
      (by rw [hgroup]; exact List.forall_mem_singleton.mpr htable)
      (by rw [TouchedOnce, hgroup]; exact List.nodup_singleton _) failed ha, hgroup]
    rfl

/-! ### Completed flushes -/

/-- An event of a mapped table, with the columns its table has. -/
structure ChangeEvent.OfMapped (P : Platform) (columnsOf : String → List String) (e : ChangeEvent) :
    Prop where
  mapped : IsMapped e.table
  ofTable : ∀ target ∈ tableMap.get? (normalizePgTable e.table),
    e.OfTable P (normalizePgTable e.table) target.1 (columnsOf (normalizePgTable e.table))

theorem ChangeEvent.OfMapped.keyed {P : Platform} {columnsOf : String → List String}
    {e : ChangeEvent} (h : e.OfMapped P columnsOf) : e.Keyed P := by
  intro target htarget
  exact (h.ofTable target htarget).keyed htarget target htarget

theorem ChangeEvent.OfMapped.ofTable_of_mem_group {P : Platform} {columnsOf : String → List String}
    {events : List ChangeEvent} (h : ∀ e ∈ events, e.OfMapped P columnsOf)
    {pgTable sfCurrent sfHistory : String}
    (hmap : tableMap.get? pgTable = some (sfCurrent, sfHistory)) :
    ∀ e ∈ events.filter fun e => normalizePgTable e.table = pgTable,
      e.OfTable P pgTable sfCurrent (columnsOf pgTable) := by
  intro e he
  rw [List.mem_filter, decide_eq_true_eq] at he
  have htable := (h e he.1).ofTable (sfCurrent, sfHistory) (by rw [he.2]; exact hmap)
  rwa [he.2] at htable

section Flushes

variable {P : Platform} {columnsOf : String → List String}
  {writes : List (List ChangeEvent × Attempt)} (hflushes : CompletedFlushes writes)
  (hevents : ∀ batch ∈ writtenBatches writes, ∀ e ∈ batch, e.OfMapped P columnsOf)
  {pgTable sfCurrent sfHistory : String}
  (hmap : tableMap.get? pgTable = some (sfCurrent, sfHistory))
  (honce : ∀ batch ∈ writtenBatches writes, TouchedOnce P pgTable sfCurrent batch)

include hflushes hevents hmap honce

/-- Completed flushes at a key. -/
theorem rowsAt_applyWrites (st : Store) (k : List PyVal) :
    rowsAt (keyOf (pkOf sfCurrent)) k (applyWrites P writes st sfCurrent) =
      runOps .none (((writtenBatches writes).flatten.filter fun e =>
        normalizePgTable e.table = pgTable).map (changeOp P sfCurrent k))
        (rowsAt (keyOf (pkOf sfCurrent)) k (st sfCurrent)) := by
  induction hflushes with
  | nil => rfl
  | flush h batch hfailed ha ih =>
    rw [writtenBatches_append, writtenBatches_completed batch hfailed ha] at hevents honce ⊢
    have hbatch := hevents batch (by simp)
    rw [applyWrites_append, rowsAt_completedFlush hmap (fun e he => (hbatch e he).mapped)
      (fun e he => (hbatch e he).keyed) (ChangeEvent.OfMapped.ofTable_of_mem_group hbatch hmap)
      (honce batch (by simp)) _ ha,
      ih (fun b hb => hevents b (List.mem_append_left _ hb))
        (fun b hb => honce b (List.mem_append_left _ hb)),
      List.flatten_append, List.filter_append, List.map_append, runOps_append,
      List.flatten_singleton]

/-- **Completed flushes apply the written changes in order**, when no batch touches a key twice. -/
theorem applyWrites_perm_changes (st : Store) :
    (applyWrites P writes st sfCurrent).Perm
      (applyChanges P sfCurrent ((writtenBatches writes).flatten.filter fun e =>
        normalizePgTable e.table = pgTable) (st sfCurrent)) := by
  apply perm_of_rowsAt (keyOf (pkOf sfCurrent))
  intro k
  have hall : ∀ e ∈ (writtenBatches writes).flatten, e.OfMapped P columnsOf := by
    intro e he
    obtain ⟨batch, hbatch, hmem⟩ := List.mem_flatten.mp he
    exact hevents batch hbatch e hmem
  rw [rowsAt_applyWrites hflushes hevents hmap honce,
    rowsAt_applyChanges (ChangeEvent.OfMapped.ofTable_of_mem_group hall hmap)]

end Flushes

end PgSnowflakeCdc
