import PgSnowflakeCdc.Sink.KeyUniqueness
import PgSnowflakeCdc.Sink.TouchedOnce

/-!
# Two instances of the service on one slot

During a rolling deploy two instances poll the same slot.  A poll hands the next undelivered
transactions to the instance that makes it; from there on each instance works through its own changes
and its own buffer, and the statements it writes do not look at LSNs.

* `Overlap.step`, `Overlap.run` — the two instances, the slot and the tables;
* `step_spec` — **what a step writes, and what is still to be written after it**;
* `onTrack_step`, `onTrack_of_step` — a key stays on track when the step writes no outdated change of
  it, and, rows of a table having the same columns, only then;
* `row_of_lastChange` — keys that were unique stay so: **an upserted key ends with exactly one row**;
* `overlap_holds_last_iff` — **the table holds the last change of every key exactly when no step writes
  an outdated change.**
-/

namespace PgSnowflakeCdc

open OrderedDict RowNumbering KeyedRows Replay

/-! ### The batch of a call -/

/-- The batch that a call flushes. -/
def SinkCall.batch (cfg : Config) (sink : SnowflakeSink) : SinkCall → List ChangeEvent
  | .flush _ => sink.buffer
  | .publish env event =>
    if IsMapped event.table ∧ SnowflakeSink.FlushDue cfg sink env then
      sink.buffer ++ [event.normalized]
    else []

/-- `publish` of a mapped event, by whether a flush is due. -/
theorem SnowflakeSink.publish_eq (cfg : Config) (sink : SnowflakeSink) (env : CallEnv)
    {event : ChangeEvent} (h : IsMapped event.table) :
    sink.publish cfg env event =
      if FlushDue cfg sink env then
        flush cfg { sink with buffer := sink.buffer ++ [event.normalized] } env
      else ⟨{ sink with buffer := sink.buffer ++ [event.normalized] }, .ok none, []⟩ := by
  rw [publish, if_neg (not_not_intro h)]
  simp only [List.length_append, List.length_singleton, Nat.cast_add, Nat.cast_one]
  rfl

/-- **A call whose flush succeeds** writes its batch, or has none; the batch and the new buffer are the
old buffer and what is published. -/
theorem SinkCall.spec_of_succeeds {cfg : Config} (sink : SnowflakeSink) {c : SinkCall}
    (h : c.batch cfg sink ≠ [] → c.env.Succeeds cfg) :
    c.batch cfg sink ++ (c.perform cfg sink).sink.buffer =
        sink.buffer ++ replicated (publishedBy [c]) ∧
      ((c.batch cfg sink = [] ∧ (c.perform cfg sink).writes = []) ∨
        ∃ (failed : List Attempt) (a : Attempt), a.succeeded = true ∧
          (c.perform cfg sink).writes = (failed ++ [a]).map fun a => (c.batch cfg sink, a)) := by
  cases c with
  | flush env =>
    obtain ⟨hbuffer, hwrites⟩ := sink.flush_of_succeeds cfg env h
    rw [perform, hbuffer]
    exact ⟨rfl, hwrites⟩
  | publish env event =>
    show _ = sink.buffer ++ replicated [event] ∧ _
    rw [batch] at h ⊢
    rw [perform]
    by_cases hmapped : IsMapped event.table
    · rw [sink.publish_eq cfg env hmapped, replicated_mapped hmapped]
      by_cases hdue : SnowflakeSink.FlushDue cfg sink env
      · rw [if_pos ⟨hmapped, hdue⟩] at h ⊢
        rw [if_pos hdue]
        obtain ⟨hbuffer, hwrites⟩ := SnowflakeSink.flush_of_succeeds cfg
          { sink with buffer := sink.buffer ++ [event.normalized] } env h
        rw [hbuffer, List.append_nil]
        exact ⟨rfl, hwrites⟩
      · rw [if_neg hdue, if_neg fun hboth => hdue hboth.2]
        exact ⟨rfl, Or.inl ⟨rfl, rfl⟩⟩
    · rw [SnowflakeSink.publish_unmapped _ _ _ hmapped, if_neg fun hboth => hmapped hboth.1,
        replicated_unmapped hmapped, List.append_nil]
      exact ⟨rfl, Or.inl ⟨rfl, rfl⟩⟩

namespace Overlap

/-! ### The machine -/

/-- The two instances. -/
inductive Replica where
  | outgoing : Replica
  | incoming : Replica
deriving DecidableEq

instance : Fintype Replica := ⟨{.outgoing, .incoming}, fun i => by cases i <;> decide⟩

/-- One instance: the changes of its last poll that it has not worked through, and its sink. -/
structure Worker where
  pending : List ChangeEvent
  sink : SnowflakeSink

/-- The undelivered transactions, the instances, and the tables both write. -/
structure State where
  slot : List (List ChangeEvent)
  worker : Replica → Worker
  tables : Store

/-- Whose step is next: a poll that hands out so many transactions, the next round of the `for` loop
over the polled changes, or a flush. -/
inductive Input where
  | poll (i : Replica) (transactions : ℕ) : Input
  | publish (i : Replica) (env : CallEnv) : Input
  | flush (i : Replica) (env : CallEnv) : Input

/-- Nothing polled yet, nothing buffered. -/
def State.start (slot : List (List ChangeEvent)) (now : Replica → ℚ) (tables : Store) : State where
  slot := slot
  worker i := ⟨[], .new (now i)⟩
  tables := tables

/-- An instance after a call of its sink. -/
def State.called (P : Platform) (s : State) (i : Replica) (pending : List ChangeEvent)
    (r : CallResult) : State :=
  { s with
    worker := Function.update s.worker i ⟨pending, r.sink⟩
    tables := applyWrites P r.writes s.tables }

/-- One step of one instance; it polls again when it is through with the last poll. -/
def step (P : Platform) (cfg : Config) (s : State) : Input → State
  | .poll i n =>
    if (s.worker i).pending = [] then
      { s with
        slot := s.slot.drop n
        worker := Function.update s.worker i ⟨(s.slot.take n).flatten, (s.worker i).sink⟩ }
    else s
  | .publish i env =>
    match (s.worker i).pending with
    | [] => s
    | e :: rest =>
      if ¬ IsMapped e.table then
        { s with worker := Function.update s.worker i ⟨rest, (s.worker i).sink⟩ }
      else s.called P i rest ((s.worker i).sink.publish cfg env e)
  | .flush i env => s.called P i (s.worker i).pending ((s.worker i).sink.flush cfg env)

/-- The state after some steps of the two instances, in any order. -/
def run (P : Platform) (cfg : Config) (inputs : List Input) (s : State) : State :=
  Replay.run (fun i s => step P cfg s i) inputs s

/-- All changes are polled and worked through, and both buffers are empty. -/
def State.Drained (s : State) : Prop :=
  s.slot = [] ∧ ∀ i, (s.worker i).pending = [] ∧ (s.worker i).sink.buffer = []

instance (s : State) : Decidable s.Drained := inferInstanceAs (Decidable (_ ∧ _))

/-- The flushes of a step succeed. -/
def Input.Succeeds (cfg : Config) : Input → Prop
  | .poll _ _ => True
  | .publish _ env => env.Succeeds cfg
  | .flush _ env => env.Succeeds cfg

instance (cfg : Config) : DecidablePred (Input.Succeeds cfg)
  | .poll _ _ => isTrue trivial
  | .publish _ env => inferInstanceAs (Decidable (env.Succeeds cfg))
  | .flush _ env => inferInstanceAs (Decidable (env.Succeeds cfg))

/-- The batch that a step flushes. -/
def State.batch (cfg : Config) (s : State) : Input → List ChangeEvent
  | .poll _ _ => []
  | .publish i env =>
    match (s.worker i).pending with
    | [] => []
    | e :: _ => (SinkCall.publish env e).batch cfg (s.worker i).sink
  | .flush i env => (SinkCall.flush env).batch cfg (s.worker i).sink

/-- The mapped changes an instance has not written. -/
def Worker.held (w : Worker) : List ChangeEvent := w.sink.buffer ++ replicated w.pending

/-- The mapped changes that are not written yet. -/
def State.outstanding (s : State) : List ChangeEvent :=
  replicated s.slot.flatten ++ ((s.worker .outgoing).held ++ (s.worker .incoming).held)

/-! ### One step -/

def Replica.other : Replica → Replica
  | .outgoing => .incoming
  | .incoming => .outgoing

theorem Replica.other_ne (i : Replica) : i.other ≠ i := by
  cases i <;> nofun

/-- What is outstanding, the worker of interest first. -/
theorem outstanding_perm (s : State) (i : Replica) :
    s.outstanding.Perm
      (replicated s.slot.flatten ++ ((s.worker i).held ++ (s.worker i.other).held)) := by
  cases i with
  | outgoing => exact List.Perm.refl _
  | incoming => exact List.perm_append_comm.append_left _

/-- When a step of one worker hands over `batch`, and keeps the rest of what it took. -/
theorem outstanding_update (s : State) (i : Replica) {slot : List (List ChangeEvent)} {w : Worker}
    {tables : Store} (batch : List ChangeEvent)
    (h : (replicated s.slot.flatten ++ (s.worker i).held).Perm
      (batch ++ (replicated slot.flatten ++ w.held))) :
    s.outstanding.Perm
      (batch ++ State.outstanding ⟨slot, Function.update s.worker i w, tables⟩) := by
  have hafter := outstanding_perm ⟨slot, Function.update s.worker i w, tables⟩ i
  simp only [Function.update_self, Function.update_of_ne i.other_ne] at hafter
  have hbefore := outstanding_perm s i
  rw [List.perm_iff_count] at h hafter hbefore ⊢
  intro e
  have h := h e
  have hafter := hafter e
  have hbefore := hbefore e
  simp only [List.count_append] at h hafter hbefore ⊢
  omega

/-- What is outstanding is the batch of a step and what is outstanding after it; the tables take the
batch, if there is one. -/
def Hands (P : Platform) (s s' : State) (batch : List ChangeEvent) : Prop :=
  s.outstanding.Perm (batch ++ s'.outstanding) ∧
    ((batch = [] ∧ s'.tables = s.tables) ∨
      ∃ (failed : List Attempt) (a : Attempt), a.succeeded = true ∧
        s'.tables = applyWrites P ((failed ++ [a]).map fun a => (batch, a)) s.tables)

/-- A call of the sink of a worker that has `rest` left to publish. -/
theorem called_spec {P : Platform} {cfg : Config} {s : State} (i : Replica) (c : SinkCall)
    {rest : List ChangeEvent} (h : c.batch cfg (s.worker i).sink ≠ [] → c.env.Succeeds cfg)
    (hpending : replicated (s.worker i).pending = replicated (publishedBy [c]) ++ replicated rest) :
    Hands P s (s.called P i rest (c.perform cfg (s.worker i).sink))
      (c.batch cfg (s.worker i).sink) := by
  obtain ⟨hbuffer, hwrites⟩ := SinkCall.spec_of_succeeds (s.worker i).sink h
  constructor
  · apply outstanding_update
    have hheld : (s.worker i).held = c.batch cfg (s.worker i).sink ++
        ((c.perform cfg (s.worker i).sink).sink.buffer ++ replicated rest) := by
      rw [Worker.held, hpending, ← List.append_assoc, ← hbuffer, List.append_assoc]
    rw [hheld, List.perm_iff_count]
    intro e
    simp only [Worker.held, List.count_append]
    omega
  · rcases hwrites with ⟨hbatch, hwrites⟩ | ⟨failed, a, ha, hwrites⟩
    · refine Or.inl ⟨hbatch, ?_⟩
      show applyWrites P (c.perform cfg (s.worker i).sink).writes s.tables = s.tables
      rw [hwrites]
      rfl
    · refine Or.inr ⟨failed, a, ha, ?_⟩
      show applyWrites P (c.perform cfg (s.worker i).sink).writes s.tables = _
      rw [hwrites]

/-- **One step** hands its batch to the tables. -/
theorem step_spec {P : Platform} {cfg : Config} {s : State} {i : Input}
    (h : s.batch cfg i ≠ [] → i.Succeeds cfg) : Hands P s (step P cfg s i) (s.batch cfg i) := by
  cases i with
  | poll j n =>
    rw [step]
    split
    · next hidle =>
      refine ⟨outstanding_update s j [] ?_, Or.inl ⟨rfl, rfl⟩⟩
      have hsplit : replicated s.slot.flatten =
          replicated (s.slot.take n).flatten ++ replicated (s.slot.drop n).flatten := by
        rw [← replicated_append, ← List.flatten_append, List.take_append_drop]
      rw [hsplit, List.perm_iff_count]
      intro e
      simp only [Worker.held, hidle, replicated_nil, List.count_append, List.count_nil]
      omega
    · exact ⟨List.Perm.refl _, Or.inl ⟨rfl, rfl⟩⟩
  | publish j env =>
    rw [State.batch, step] at *
    cases hpending : (s.worker j).pending with
    | nil => exact ⟨List.Perm.refl _, Or.inl ⟨rfl, rfl⟩⟩
    | cons e rest =>
      rw [hpending] at h
      have hcons : replicated (e :: rest) = replicated [e] ++ replicated rest :=
        replicated_append [e] rest
      by_cases hmapped : IsMapped e.table
      · simp only [if_neg (not_not_intro hmapped)]
        exact called_spec j (.publish env e) h (by rw [hpending]; exact hcons)
      · have hnone : (SinkCall.publish env e).batch cfg (s.worker j).sink = [] :=
          if_neg fun hboth => hmapped hboth.1
        simp only [if_pos hmapped, hnone]
        refine ⟨outstanding_update s j [] ?_, Or.inl ⟨rfl, rfl⟩⟩
        rw [Worker.held, Worker.held, hpending, hcons, replicated_unmapped hmapped]
        exact List.Perm.refl _
  | flush j env => exact called_spec j (.flush env) h rfl

/-! ### The last change of a key -/

/-- The last change of a key in WAL order. -/
def lastChange (P : Platform) (pgTable sfCurrent : String) (wal : List ChangeEvent) (k : List PyVal) :
    Option ChangeEvent :=
  ((groupOf pgTable (replicated wal)).filter fun e => changeKey P sfCurrent e = k).getLast?

/-- **What the two instances are to leave**: at every key the rows are those the last change leaves;
they are the rows from before when there is no change. -/
def HoldsLastChanges (P : Platform) (pgTable sfCurrent : String) (wal : List ChangeEvent)
    (before after : Table) : Prop :=
  ∀ k, match lastChange P pgTable sfCurrent wal k with
    | none => rowsAt (keyOf (pkOf sfCurrent)) k after = rowsAt (keyOf (pkOf sfCurrent)) k before
    | some last => HoldsChange P sfCurrent (imageColumns P last) last
        (rowsAt (keyOf (pkOf sfCurrent)) k after)

/-- What a step flushes is written and touches no key of the table twice. -/
def Steady (P : Platform) (cfg : Config) (pgTable sfCurrent : String) (s : State) (i : Input) : Prop :=
  (s.batch cfg i ≠ [] → i.Succeeds cfg) ∧ TouchedOnce P pgTable sfCurrent (s.batch cfg i)

instance (P : Platform) (cfg : Config) (pgTable sfCurrent : String) (s : State) (i : Input) :
    Decidable (Steady P cfg pgTable sfCurrent s i) :=
  inferInstanceAs (Decidable (_ ∧ _))

/-- Writing `e` in a batch leaves at its key what `last` says. -/
def Leaves (P : Platform) (pgTable sfCurrent : String) (batch : List ChangeEvent)
    (e last : ChangeEvent) : Prop :=
  SameChange P sfCurrent (imageColumns P last) e last ∧
    (last.isUpsert = true → ∀ c ∈ imageColumns P last, c ∈ mergeColumns P (groupOf pgTable batch))

instance (P : Platform) (pgTable sfCurrent : String) (batch : List ChangeEvent)
    (e last : ChangeEvent) : Decidable (Leaves P pgTable sfCurrent batch e last) :=
  inferInstanceAs (Decidable (_ ∧ _))

/-- A change of the key that says what `last` says is among `events`. -/
def Awaits (P : Platform) (pgTable sfCurrent : String) (events : List ChangeEvent) (k : List PyVal)
    (last : ChangeEvent) : Prop :=
  ∃ e ∈ groupOf pgTable events, changeKey P sfCurrent e = k ∧
    SameChange P sfCurrent (imageColumns P last) e last

instance (P : Platform) (pgTable sfCurrent : String) (events : List ChangeEvent) (k : List PyVal)
    (last : ChangeEvent) : Decidable (Awaits P pgTable sfCurrent events k last) :=
  inferInstanceAs (Decidable (∃ _ ∈ _, _))

/-- **No outdated change is written**: each change of the batch leaves what the last change of its key
says, or a change that says so is outstanding besides the batch. -/
def Timely (P : Platform) (cfg : Config) (pgTable sfCurrent : String) (wal : List ChangeEvent)
    (s : State) (i : Input) : Prop :=
  ∀ e ∈ groupOf pgTable (s.batch cfg i),
    ∀ last ∈ lastChange P pgTable sfCurrent wal (changeKey P sfCurrent e),
      Leaves P pgTable sfCurrent (s.batch cfg i) e last ∨
        Awaits P pgTable sfCurrent (s.outstanding.diff (s.batch cfg i)) (changeKey P sfCurrent e) last

instance (P : Platform) (cfg : Config) (pgTable sfCurrent : String) (wal : List ChangeEvent)
    (s : State) (i : Input) : Decidable (Timely P cfg pgTable sfCurrent wal s i) :=
  inferInstanceAs (Decidable (∀ _ ∈ _, ∀ _ ∈ _, _))

theorem Awaits.mono {P : Platform} {pgTable sfCurrent : String} {events events' : List ChangeEvent}
    {k : List PyVal} {last : ChangeEvent} (h : Awaits P pgTable sfCurrent events k last)
    (hsub : ∀ e ∈ groupOf pgTable events, changeKey P sfCurrent e = k → e ∈ events') :
    Awaits P pgTable sfCurrent events' k last := by
  obtain ⟨e, he, hkey, hsame⟩ := h
  exact ⟨e, mem_groupOf.mpr ⟨hsub e he hkey, (mem_groupOf.mp he).2⟩, hkey, hsame⟩

/-- What a step leaves outstanding is what is outstanding besides its batch. -/
theorem Hands.mem_diff {P : Platform} {s s' : State} {batch : List ChangeEvent}
    (h : Hands P s s' batch) {e : ChangeEvent} : e ∈ s.outstanding.diff batch ↔ e ∈ s'.outstanding := by
  have hcount : ∀ x ∈ batch, batch.count x ≤ s.outstanding.count x := by
    intro x _
    rw [h.1.count_eq, List.count_append]
    exact Nat.le_add_right _ _
  have hsplit := List.subperm_append_diff_self_of_count_le hcount
  exact ((List.perm_append_left_iff batch).mp (hsplit.trans h.1)).mem_iff

theorem Hands.mem_outstanding {P : Platform} {s s' : State} {batch : List ChangeEvent}
    (h : Hands P s s' batch) {e : ChangeEvent} :
    e ∈ s.outstanding ↔ e ∈ batch ∨ e ∈ s'.outstanding := by
  rw [h.1.mem_iff, List.mem_append]

/-! ### Keys on track -/

/-- The table holds at the key what the last change says, or a change that says so is outstanding. -/
def OnTrack (P : Platform) (pgTable sfCurrent : String) (s : State) (k : List PyVal)
    (last : ChangeEvent) : Prop :=
  HoldsChange P sfCurrent (imageColumns P last) last
      (rowsAt (keyOf (pkOf sfCurrent)) k (s.tables sfCurrent)) ∨
    Awaits P pgTable sfCurrent s.outstanding k last

section Steps

variable {P : Platform} {pgTable sfCurrent sfHistory : String}
  (hmap : tableMap.get? pgTable = some (sfCurrent, sfHistory)) {s s' : State}
  {batch : List ChangeEvent} (hstep : Hands P s s' batch)
  (hgood : ∀ e ∈ s.outstanding, IsMapped e.table ∧ e.KeyedImage P)
  (honce : TouchedOnce P pgTable sfCurrent batch) {k : List PyVal}

include hmap hstep hgood

/-- A step leaves the keys alone that its batch does not touch. -/
theorem rowsAt_untouched (hfree : ∀ e ∈ groupOf pgTable batch, changeKey P sfCurrent e ≠ k) :
    rowsAt (keyOf (pkOf sfCurrent)) k (s'.tables sfCurrent) =
      rowsAt (keyOf (pkOf sfCurrent)) k (s.tables sfCurrent) := by
  rcases hstep.2 with ⟨-, htables⟩ | ⟨failed, a, -, htables⟩
  · rw [htables]
  · have hbatch : ∀ e ∈ batch, IsMapped e.table ∧ e.KeyedImage P :=
      fun e he => hgood e (hstep.mem_outstanding.mpr (Or.inl he))
    rw [htables, rowsAt_flush_untouched hmap (fun e he => (hbatch e he).1)
      (fun e he => (hbatch e he).2) hfree]

/-- A step keeps the keys unique. -/
theorem uniqueKeys_step (h : UniqueKeys (keyOf (pkOf sfCurrent)) (s.tables sfCurrent)) :
    UniqueKeys (keyOf (pkOf sfCurrent)) (s'.tables sfCurrent) := by
  rcases hstep.2 with ⟨-, htables⟩ | ⟨failed, a, -, htables⟩
  · rw [htables]
    exact h
  · rw [htables]
    refine uniqueKeys_applyWrites (pkOf_of_mapped hmap).2.1 ?_ h
    intro w hw e he
    obtain ⟨b, -, rfl⟩ := List.mem_map.mp hw
    exact (hgood e (hstep.mem_outstanding.mpr (Or.inl he))).2.keyed

include honce

/-- After a step the keys that its batch touches hold its changes. -/
theorem rowsAt_touched {e : ChangeEvent} (he : e ∈ groupOf pgTable batch) :
    HoldsChange P sfCurrent (mergeColumns P (groupOf pgTable batch)) e
      (rowsAt (keyOf (pkOf sfCurrent)) (changeKey P sfCurrent e) (s'.tables sfCurrent)) := by
  rcases hstep.2 with ⟨hnil, -⟩ | ⟨failed, a, ha, htables⟩
  · rw [hnil] at he
    exact absurd he List.not_mem_nil
  · have hbatch : ∀ e ∈ batch, IsMapped e.table ∧ e.KeyedImage P :=
      fun e he => hgood e (hstep.mem_outstanding.mpr (Or.inl he))
    rw [htables]
    exact rowsAt_flush_touched hmap (fun e he => (hbatch e he).1) (fun e he => (hbatch e he).2)
      honce he failed ha _

/-- **A key stays on track when no outdated change of it is written.** -/
theorem onTrack_step {last : ChangeEvent}
    (htimely : ∀ e ∈ groupOf pgTable batch, changeKey P sfCurrent e = k →
      Leaves P pgTable sfCurrent batch e last ∨
        Awaits P pgTable sfCurrent (s.outstanding.diff batch) k last)
    (h : OnTrack P pgTable sfCurrent s k last) : OnTrack P pgTable sfCurrent s' k last := by
  by_cases htouch : ∃ e ∈ groupOf pgTable batch, changeKey P sfCurrent e = k
  · obtain ⟨e, he, hkey⟩ := htouch
    rcases htimely e he hkey with ⟨hsame, hcols⟩ | hawait
    · have hholds := rowsAt_touched hmap hstep hgood honce he
      rw [hkey] at hholds
      exact Or.inl (hholds.of_same hcols hsame)
    · exact Or.inr (hawait.mono fun e he _ => hstep.mem_diff.mp (mem_groupOf.mp he).1)
  · have hfree : ∀ e ∈ groupOf pgTable batch, changeKey P sfCurrent e ≠ k :=
      fun e he hkey => htouch ⟨e, he, hkey⟩
    rcases h with hholds | hawait
    · left
      rw [rowsAt_untouched hmap hstep hgood hfree]
      exact hholds
    · refine Or.inr (hawait.mono fun e he hkey => ?_)
      obtain ⟨hmem, htable⟩ := mem_groupOf.mp he
      rcases hstep.mem_outstanding.mp hmem with hbatch | hrest
      · exact absurd hkey (hfree e (mem_groupOf.mpr ⟨hbatch, htable⟩))
      · exact hrest

/-- **When all rows have the same columns, a key is on track after a step only if it was before and no
outdated change of it was written.** -/
theorem onTrack_of_step {columns : List String}
    (hcolumns : ∀ e ∈ groupOf pgTable s.outstanding, (imageOf e).keys = columns) {last : ChangeEvent}
    (hlast : (imageOf last).keys = columns) (h : OnTrack P pgTable sfCurrent s' k last) :
    OnTrack P pgTable sfCurrent s k last ∧
      ∀ e ∈ groupOf pgTable batch, changeKey P sfCurrent e = k →
        Leaves P pgTable sfCurrent batch e last ∨
          Awaits P pgTable sfCurrent (s.outstanding.diff batch) k last := by
  have hout : ∀ e ∈ groupOf pgTable batch, e ∈ s.outstanding :=
    fun e he => hstep.mem_outstanding.mpr (Or.inl (mem_groupOf.mp he).1)
  rcases h with hholds | hawait
  · by_cases htouch : ∃ e ∈ groupOf pgTable batch, changeKey P sfCurrent e = k
    · obtain ⟨e, he, hkey⟩ := htouch
      have hbatch : ∀ e ∈ groupOf pgTable batch, (imageOf e).keys = columns := fun e he =>
        hcolumns e (mem_groupOf.mpr ⟨hout e he, (mem_groupOf.mp he).2⟩)
      have hmem := fun hup c => mem_mergeColumns
        (keyedIn_of_mem_group hmap fun e he => (hgood e (hstep.mem_outstanding.mpr (Or.inl he))).2)
        (pkOf_of_mapped hmap).1 hbatch he hup hlast (c := c)
      -- the rows hold both changes, so these say the same
      have hown := rowsAt_touched hmap hstep hgood honce he
      rw [hkey] at hown
      have hsame : SameChange P sfCurrent (imageColumns P last) e last :=
        (hown.of_same (fun hup c hc => (hmem hup c).mpr hc) ⟨rfl, fun _ _ _ => rfl⟩).same hholds
      refine ⟨Or.inr ⟨e, mem_groupOf.mpr ⟨hout e he, (mem_groupOf.mp he).2⟩, hkey, hsame⟩, ?_⟩
      intro e' he' hkey'
      have heq : e' = e := List.inj_on_of_nodup_map honce he' he (hkey'.trans hkey.symm)
      rw [heq]
      exact Or.inl ⟨hsame, fun hup c hc => (hmem (hsame.1.trans hup) c).mpr hc⟩
    · have hfree : ∀ e ∈ groupOf pgTable batch, changeKey P sfCurrent e ≠ k :=
        fun e he hkey => htouch ⟨e, he, hkey⟩
      rw [rowsAt_untouched hmap hstep hgood hfree] at hholds
      exact ⟨Or.inl hholds, fun e he hkey => absurd hkey (hfree e he)⟩
  · refine ⟨Or.inr (hawait.mono fun e he _ => ?_), fun e he hkey => Or.inr (hawait.mono fun e he _ => ?_)⟩
    · exact hstep.mem_outstanding.mpr (Or.inr (mem_groupOf.mp he).1)
    · exact hstep.mem_diff.mpr (mem_groupOf.mp he).1

end Steps

/-! ### Runs -/

/-- The changes of the WAL as the sinks see them have keyed images. -/
theorem keyedImage_of_replicated {P : Platform} {wal : List ChangeEvent}
    (hkeys : ∀ e ∈ wal, e.KeyedImage P) :
    ∀ e ∈ replicated wal, IsMapped e.table ∧ e.KeyedImage P := by
  intro e he
  obtain ⟨e₀, he₀, rfl⟩ := List.mem_map.mp he
  rw [List.mem_filter, decide_eq_true_eq] at he₀
  have htable : normalizePgTable e₀.normalized.table = normalizePgTable e₀.table :=
    normalizePgTable_idem e₀.table
  constructor
  · rw [IsMapped, htable]
    exact he₀.2
  · intro target htarget
    rw [htable] at htarget
    exact hkeys e₀ he₀.1 target htarget

theorem outstanding_of_drained {s : State} (h : s.Drained) : s.outstanding = [] := by
  obtain ⟨hslot, hworker⟩ := h
  simp only [State.outstanding, Worker.held, hslot, hworker, List.flatten_nil, replicated_nil,
    List.append_nil]

theorem outstanding_start (slot : List (List ChangeEvent)) (now : Replica → ℚ) (tables : Store) :
    (State.start slot now tables).outstanding = replicated slot.flatten :=
  List.append_nil _

/-- Every key is on track. -/
def AllOnTrack (P : Platform) (pgTable sfCurrent : String) (wal : List ChangeEvent) (s : State) : Prop :=
  ∀ k, ∀ last ∈ lastChange P pgTable sfCurrent wal k, OnTrack P pgTable sfCurrent s k last

theorem lastChange_spec {P : Platform} {pgTable sfCurrent : String} {wal : List ChangeEvent}
    {k : List PyVal} {last : ChangeEvent} (h : last ∈ lastChange P pgTable sfCurrent wal k) :
    last ∈ groupOf pgTable (replicated wal) ∧ changeKey P sfCurrent last = k := by
  have hmem := List.mem_of_getLast? h
  rw [List.mem_filter, decide_eq_true_eq] at hmem
  exact hmem

/-- At first everything is outstanding. -/
theorem allOnTrack_start (P : Platform) (pgTable sfCurrent : String) (slot : List (List ChangeEvent))
    (now : Replica → ℚ) (tables : Store) :
    AllOnTrack P pgTable sfCurrent slot.flatten (.start slot now tables) := by
  intro k last hlast
  obtain ⟨hmem, hkey⟩ := lastChange_spec hlast
  rw [OnTrack, outstanding_start]
  exact Or.inr ⟨last, hmem, hkey, rfl, fun _ _ _ => rfl⟩

section Runs

variable {P : Platform} {cfg : Config} {pgTable sfCurrent sfHistory : String}
  (hmap : tableMap.get? pgTable = some (sfCurrent, sfHistory)) {wal : List ChangeEvent}
  (hkeys : ∀ e ∈ wal, e.KeyedImage P)

include hkeys in
/-- What is outstanding comes from the WAL, and what every step keeps on that ground holds of a run. -/
theorem run_invariant_outstanding {R : State → Input → Prop} {Q : State → Prop} {inputs : List Input}
    {s : State} (hsub : s.outstanding ⊆ replicated wal)
    (hrun : Along (fun i s => step P cfg s i) R inputs s)
    (hsucceeds : ∀ s i, R s i → s.batch cfg i ≠ [] → i.Succeeds cfg) (h : Q s)
    (hstep : ∀ s i, Hands P s (step P cfg s i) (s.batch cfg i) →
      (∀ e ∈ s.outstanding, e ∈ replicated wal ∧ IsMapped e.table ∧ e.KeyedImage P) → R s i → Q s →
        Q (step P cfg s i)) :
    (run P cfg inputs s).outstanding ⊆ replicated wal ∧ Q (run P cfg inputs s) := by
  refine run_invariant_along (P := fun s' : State => s'.outstanding ⊆ replicated wal ∧ Q s') _
    ⟨hsub, h⟩ hrun ?_
  rintro i - s' ⟨hsub, hs'⟩ hi
  have hhands : Hands P s' (step P cfg s' i) (s'.batch cfg i) := step_spec (hsucceeds s' i hi)
  refine ⟨fun e he => hsub (hhands.mem_outstanding.mpr (Or.inr he)), ?_⟩
  exact hstep s' i hhands (fun e he => ⟨hsub he, keyedImage_of_replicated hkeys e (hsub he)⟩) hi hs'

include hmap hkeys

/-- What is outstanding comes from the WAL, and keys without a change keep their rows. -/
theorem run_keeps {inputs : List Input} {s : State} (hsub : s.outstanding ⊆ replicated wal)
    (hsteady : Along (fun i s => step P cfg s i) (Steady P cfg pgTable sfCurrent) inputs s) :
    (run P cfg inputs s).outstanding ⊆ replicated wal ∧
      ∀ k, lastChange P pgTable sfCurrent wal k = none →
        rowsAt (keyOf (pkOf sfCurrent)) k ((run P cfg inputs s).tables sfCurrent) =
          rowsAt (keyOf (pkOf sfCurrent)) k (s.tables sfCurrent) := by
  refine run_invariant_outstanding hkeys hsub hsteady (fun _ _ hi => hi.1)
    (Q := fun s' => ∀ k, lastChange P pgTable sfCurrent wal k = none →
      rowsAt (keyOf (pkOf sfCurrent)) k (s'.tables sfCurrent) =
        rowsAt (keyOf (pkOf sfCurrent)) k (s.tables sfCurrent)) (fun k _ => rfl) ?_
  intro s' i hstep hgood _ hrows k hnone
  rw [rowsAt_untouched hmap hstep fun e he => (hgood e he).2]
  · exact hrows k hnone
  · intro e he hkey
    obtain ⟨hmem, htable⟩ := mem_groupOf.mp he
    have hwal : e ∈ groupOf pgTable (replicated wal) :=
      mem_groupOf.mpr ⟨(hgood e (hstep.mem_outstanding.mpr (Or.inl hmem))).1, htable⟩
    rw [lastChange, List.getLast?_eq_none_iff, List.filter_eq_nil_iff] at hnone
    exact hnone e hwal (decide_eq_true hkey)

/-- Unique keys stay unique. -/
theorem uniqueKeys_run {inputs : List Input} {s : State} (hsub : s.outstanding ⊆ replicated wal)
    (hsteady : Along (fun i s => step P cfg s i) (Steady P cfg pgTable sfCurrent) inputs s)
    (h : UniqueKeys (keyOf (pkOf sfCurrent)) (s.tables sfCurrent)) :
    UniqueKeys (keyOf (pkOf sfCurrent)) ((run P cfg inputs s).tables sfCurrent) := by
  refine (run_invariant_outstanding hkeys hsub hsteady (fun _ _ hi => hi.1)
    (Q := fun s' => UniqueKeys (keyOf (pkOf sfCurrent)) (s'.tables sfCurrent)) h ?_).2
  intro s' i hstep hgood _ hs'
  exact uniqueKeys_step hmap hstep (fun e he => (hgood e he).2) hs'

/-- **An upserted key ends with exactly one row**, which has the values of its last change, when the
table had at most one row for each key and holds the last changes after the run. -/
theorem row_of_lastChange {inputs : List Input} {s : State} (hsub : s.outstanding ⊆ replicated wal)
    (hsteady : Along (fun i s => step P cfg s i) (Steady P cfg pgTable sfCurrent) inputs s)
    (hunique : UniqueKeys (keyOf (pkOf sfCurrent)) (s.tables sfCurrent))
    (hholds : HoldsLastChanges P pgTable sfCurrent wal (s.tables sfCurrent)
      ((run P cfg inputs s).tables sfCurrent)) {k : List PyVal} {last : ChangeEvent}
    (hlast : last ∈ lastChange P pgTable sfCurrent wal k) (hup : last.isUpsert = true) :
    ∃ r, rowsAt (keyOf (pkOf sfCurrent)) k ((run P cfg inputs s).tables sfCurrent) = [r] ∧
      ∀ c ∈ imageColumns P last, r c = imageRow P sfCurrent (imageOf last) c := by
  have hone := (uniqueKeys_iff _).mp (uniqueKeys_run hmap hkeys hsub hsteady hunique) k
  have hk := hholds k
  rw [Option.mem_def.mp hlast] at hk
  exact HoldsChange.exists_row hk hup hone

/-- **In a run that writes no outdated change every key stays on track.** -/
theorem allOnTrack_run {inputs : List Input} {s : State} (hsub : s.outstanding ⊆ replicated wal)
    (hsteady : Along (fun i s => step P cfg s i) (Steady P cfg pgTable sfCurrent) inputs s)
    (htimely : Along (fun i s => step P cfg s i) (Timely P cfg pgTable sfCurrent wal) inputs s)
    (h : AllOnTrack P pgTable sfCurrent wal s) :
    AllOnTrack P pgTable sfCurrent wal (run P cfg inputs s) := by
  refine (run_invariant_outstanding hkeys hsub (hsteady.and htimely) (fun _ _ hi => hi.1.1) h ?_).2
  rintro s' i hstep hgood ⟨hi, htime⟩ hs' k last hlast
  apply onTrack_step hmap hstep (fun e he => (hgood e he).2) hi.2 ?_ (hs' k last hlast)
  intro e he hkey
  subst hkey
  exact htime e he last hlast

/-- **When all rows have the same columns, a run that ends with every key on track has written no
outdated change.**  The induction is on the steps; what the last state shows holds of every earlier
one. -/
theorem timely_of_allOnTrack {columns : List String}
    (hcolumns : ∀ e ∈ groupOf pgTable (replicated wal), (imageOf e).keys = columns)
    {inputs : List Input} {s : State} (hsub : s.outstanding ⊆ replicated wal)
    (hsteady : Along (fun i s => step P cfg s i) (Steady P cfg pgTable sfCurrent) inputs s)
    (h : AllOnTrack P pgTable sfCurrent wal (run P cfg inputs s)) :
    AllOnTrack P pgTable sfCurrent wal s ∧
      Along (fun i s => step P cfg s i) (Timely P cfg pgTable sfCurrent wal) inputs s := by
  induction inputs generalizing s with
  | nil => exact ⟨h, trivial⟩
  | cons i inputs ih =>
    obtain ⟨hi, hrest⟩ := hsteady
    have hstep : Hands P s (step P cfg s i) (s.batch cfg i) := step_spec hi.1
    obtain ⟨hnext, htimely⟩ :=
      ih (fun e he => hsub (hstep.mem_outstanding.mpr (Or.inr he))) hrest h
    have hgroup : ∀ e ∈ groupOf pgTable s.outstanding, (imageOf e).keys = columns := by
      intro e he
      obtain ⟨hmem, htable⟩ := mem_groupOf.mp he
      exact hcolumns e (mem_groupOf.mpr ⟨hsub hmem, htable⟩)
    have hback := fun k last hlast => onTrack_of_step hmap hstep
      (fun e he => keyedImage_of_replicated hkeys e (hsub he)) hi.2 hgroup
      (hcolumns last (lastChange_spec hlast).1) (hnext k last hlast)
    refine ⟨fun k last hlast => (hback k last hlast).1, ⟨fun e he last hlast => ?_, htimely⟩⟩
    exact (hback _ last hlast).2 e he rfl

end Runs

/-- **Two instances leave the last change of every key exactly when no step writes an outdated
change.**  Whatever order the polls, the publishes and the successful flushes of the two instances come
in, with no key twice in a batch: once everything is polled and written, the table holds for every key
what its last change in the WAL says, provided no step has written a change of a key behind the last
word on it.  When the rows of the table all have the same columns, it does so only then. -/
theorem overlap_holds_last_iff (P : Platform) (cfg : Config) {pgTable sfCurrent sfHistory : String}
    (hmap : tableMap.get? pgTable = some (sfCurrent, sfHistory)) (slot : List (List ChangeEvent))
    (hkeys : ∀ e ∈ slot.flatten, e.KeyedImage P) (now : Replica → ℚ) (tables : Store)
    (inputs : List Input)
    (hsteady : Along (fun i s => step P cfg s i) (Steady P cfg pgTable sfCurrent) inputs
      (.start slot now tables))
    (hdrained : (run P cfg inputs (.start slot now tables)).Drained) :
    (Along (fun i s => step P cfg s i) (Timely P cfg pgTable sfCurrent slot.flatten) inputs
        (.start slot now tables) →
      HoldsLastChanges P pgTable sfCurrent slot.flatten (tables sfCurrent)
        ((run P cfg inputs (.start slot now tables)).tables sfCurrent)) ∧
      ∀ columns : List String,
        (∀ e ∈ groupOf pgTable (replicated slot.flatten), (imageOf e).keys = columns) →
        HoldsLastChanges P pgTable sfCurrent slot.flatten (tables sfCurrent)
          ((run P cfg inputs (.start slot now tables)).tables sfCurrent) →
        Along (fun i s => step P cfg s i) (Timely P cfg pgTable sfCurrent slot.flatten) inputs
          (.start slot now tables) := by
  have hsub : (State.start slot now tables).outstanding ⊆ replicated slot.flatten := by
    rw [outstanding_start]
    exact List.Subset.refl _
  obtain ⟨-, hfree⟩ := run_keeps hmap hkeys hsub hsteady
  have hout := outstanding_of_drained hdrained
  have hnothing : ∀ k last,
      ¬ Awaits P pgTable sfCurrent (run P cfg inputs (.start slot now tables)).outstanding k last := by
    rintro k last ⟨e, he, -⟩
    rw [hout] at he
    exact absurd he List.not_mem_nil
  -- with nothing outstanding, on track means written
  have hend : AllOnTrack P pgTable sfCurrent slot.flatten
        (run P cfg inputs (.start slot now tables)) ↔
      HoldsLastChanges P pgTable sfCurrent slot.flatten (tables sfCurrent)
        ((run P cfg inputs (.start slot now tables)).tables sfCurrent) := by
    constructor
    · intro h k
      split
      · next hnone => exact hfree k hnone
      · next last hlast => exact (h k last hlast).resolve_right (hnothing k last)
    · intro h k last hlast
      have hk := h k
      rw [Option.mem_def.mp hlast] at hk
      exact Or.inl hk
  rw [← hend]
  constructor
  · intro htimely
    exact allOnTrack_run hmap hkeys hsub hsteady htimely
      (allOnTrack_start P pgTable sfCurrent slot now tables)
  · intro columns hcolumns hholds
    exact (timely_of_allOnTrack hmap hkeys hcolumns hsub hsteady hholds).2

/-- Batches of ten, one attempt for each. -/
def deviceConfig : Config := ⟨10, 10, 1⟩

theorem deviceEvents_keyedImage {wal : List ChangeEvent}
    (h : ∀ e ∈ wal, ∃ op id label lsn commitLsn, e = deviceEvent op (deviceRow id label) lsn commitLsn) :
    ∀ e ∈ wal, e.KeyedImage .ascii := by
  intro e he target htarget
  obtain ⟨op, id, label, lsn, commitLsn, rfl⟩ := h e he
  have hdevices : tableMap.get? (normalizePgTable "customer_devices") =
      some ("CUSTOMER_DEVICES", "CUSTOMER_DEVICES_HISTORY") := by decide
  have hname : target = ("CUSTOMER_DEVICES", "CUSTOMER_DEVICES_HISTORY") :=
    (Option.some.inj (hdevices.symm.trans htarget)).symm
  rw [hname]
  exact (deviceEvent_ofTable op id label lsn commitLsn).keyedIn

/-- Each instance writes one device; the update of the first comes last. -/
def timelySlot : List (List ChangeEvent) :=
  [[deviceEvent .c (deviceRow "1" "tv") 10 12], [deviceEvent .c (deviceRow "2" "tv") 20 22],
    [deviceEvent .u (deviceRow "1" "radio") 30 32]]

def timelyInputs : List Input :=
  [.poll .outgoing 1, .poll .incoming 1, .publish .incoming (sampleEnv true),
    .flush .incoming (sampleEnv true), .publish .outgoing (sampleEnv true),
    .flush .outgoing (sampleEnv true), .poll .incoming 5, .publish .incoming (sampleEnv true),
    .flush .incoming (sampleEnv true)]

theorem overlap_holds_last_devices :
    HoldsLastChanges .ascii "customer_devices" "CUSTOMER_DEVICES" timelySlot.flatten []
      ((run .ascii deviceConfig timelyInputs
        (.start timelySlot (fun _ => 0) fun _ => [])).tables "CUSTOMER_DEVICES") := by
  have hmap : tableMap.get? "customer_devices" =
      some ("CUSTOMER_DEVICES", "CUSTOMER_DEVICES_HISTORY") := by decide
  have hkeys : ∀ e ∈ timelySlot.flatten, e.KeyedImage .ascii := by
    apply deviceEvents_keyedImage
    simp only [timelySlot, List.flatten_cons, List.flatten_nil, List.cons_append, List.nil_append,
      List.forall_mem_cons, List.not_mem_nil, false_imp_iff, implies_true, and_true]
    exact ⟨⟨_, _, _, _, _, rfl⟩, ⟨_, _, _, _, _, rfl⟩, ⟨_, _, _, _, _, rfl⟩⟩
  refine (overlap_holds_last_iff .ascii deviceConfig hmap timelySlot hkeys (fun _ => 0) (fun _ => [])
    timelyInputs ?_ ?_).1 ?_
  · decide +kernel
  · decide +kernel
  · decide +kernel

/-- The outgoing instance has polled the insert, the incoming one the update; the incoming one flushes
first. -/
def staleSlot : List (List ChangeEvent) :=
  [[deviceEvent .c (deviceRow "1" "tv") 10 12], [deviceEvent .u (deviceRow "1" "radio") 20 22]]

def staleInputs : List Input :=
  [.poll .outgoing 1, .poll .incoming 1, .publish .outgoing (sampleEnv true),
    .publish .incoming (sampleEnv true), .flush .incoming (sampleEnv true),
    .flush .outgoing (sampleEnv true)]

/-- **The outgoing instance undoes the update**, though every flush succeeds. -/
theorem overlap_reverts_device :
    (∀ e ∈ staleSlot.flatten, e.KeyedImage .ascii) ∧
      Along (fun i s => step .ascii deviceConfig s i)
        (Steady .ascii deviceConfig "customer_devices" "CUSTOMER_DEVICES") staleInputs
        (.start staleSlot (fun _ => 0) fun _ => []) ∧
      (run .ascii deviceConfig staleInputs (.start staleSlot (fun _ => 0) fun _ => [])).Drained ∧
      ¬ HoldsLastChanges .ascii "customer_devices" "CUSTOMER_DEVICES" staleSlot.flatten []
        ((run .ascii deviceConfig staleInputs
          (.start staleSlot (fun _ => 0) fun _ => [])).tables "CUSTOMER_DEVICES") := by
  refine ⟨?_, by decide +kernel, by decide +kernel, ?_⟩
  · apply deviceEvents_keyedImage
    simp only [staleSlot, List.flatten_cons, List.flatten_nil, List.cons_append, List.nil_append,
      List.forall_mem_cons, List.not_mem_nil, false_imp_iff, implies_true, and_true]
    exact ⟨⟨_, _, _, _, _, rfl⟩, ⟨_, _, _, _, _, rfl⟩⟩
  · intro h
    have hlast : lastChange .ascii "customer_devices" "CUSTOMER_DEVICES" staleSlot.flatten [.str "1"] =
        some (deviceEvent .u (deviceRow "1" "radio") 20 22) := by decide +kernel
    have hrows : ¬ ∀ r ∈ rowsAt (keyOf (pkOf "CUSTOMER_DEVICES")) [.str "1"]
        ((run .ascii deviceConfig staleInputs
          (.start staleSlot (fun _ => 0) fun _ => [])).tables "CUSTOMER_DEVICES"),
        r "LABEL" = .str "radio" := by decide +kernel
    have hkey := h [.str "1"]
    rw [hlast] at hkey
    apply hrows
    intro r hr
    have hlabel : "LABEL" ∈ imageColumns .ascii (deviceEvent .u (deviceRow "1" "radio") 20 22) := by
      decide +kernel
    have hvalue : imageRow .ascii "CUSTOMER_DEVICES"
        (imageOf (deviceEvent .u (deviceRow "1" "radio") 20 22)) "LABEL" = .str "radio" := by
      decide +kernel
    exact (((holdsChange_upsert rfl).mp hkey).2 r hr "LABEL" hlabel).trans hvalue

end Overlap

end PgSnowflakeCdc
