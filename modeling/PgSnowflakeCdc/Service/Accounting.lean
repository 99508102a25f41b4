import PgSnowflakeCdc.PgOutput.RoundTrip
import PgSnowflakeCdc.Service.Loop

/-!
# Where a polled change is

A change that decodes to an event of a mapped table is written, in the sink's buffer, or still in
the polled list — or it was dropped when the `for` loop over the polled list was left early: by the
shutdown check, or by an exception of `parse` or `publish`.

* `step_accounts` — one step moves changes between these places;
* `run_accounts`, `run_keeps` — over whole runs;
* `reconnects_keep_changes_iff`, `shutdown_drains_iff` — when nothing is dropped.
-/

namespace PgSnowflakeCdc

namespace Service

variable (P : Platform) (cfg : ServiceConfig)

/-! ### The places -/

/-- The events of mapped tables that are written, buffered, or to come in the polled list. -/
def held (s : Service) : List ChangeEvent :=
  (writtenBatches s.writes).flatten ++ s.sink.buffer ++
    replicated (decodedEvents P s.parser s.pending)

/-- At this change the `for` loop is left by an exception: of `parse`, or of the `publish` of its
event. -/
def LeavesLoop (s : Service) (call : CallEnv) (c : Change) : Prop :=
  BeginOutOfRange c.2 ∨ ∃ event ∈ returnedEvent (s.parser.parse P c.2 c.1).2,
    IsMapped event.table ∧ s.sink.FlushDue cfg.sink call ∧ SnowflakeSink.AllAttemptsFail cfg.sink call

instance (s : Service) (call : CallEnv) (c : Change) : Decidable (LeavesLoop P cfg s call c) :=
  inferInstanceAs (Decidable (_ ∨ ∃ event ∈ returnedEvent _, _))

/-- The events of mapped tables a step drops: what the polled list still holds when the loop is left
early. -/
def dropped (s : Service) : Input → List ChangeEvent
  | .signal => []
  | .proceed env =>
    match s.control with
    | .iterating (c :: rest) =>
      if s.shutdown then replicated (decodedEvents P s.parser (c :: rest))
      else if LeavesLoop P cfg s env.call c then
        replicated (decodedEvents P (s.parser.parse P c.2 c.1).1 rest)
      else []
    | _ => []

/-- No step of a run drops a change. -/
def StepsKeep : Service → List Input → Prop
  | _, [] => True
  | s, i :: inputs => dropped P cfg s i = [] ∧ StepsKeep (s.step P cfg i) inputs

/-- Everything the steps of a run drop. -/
def lost : Service → List Input → List ChangeEvent
  | _, [] => []
  | s, i :: inputs => dropped P cfg s i ++ lost (s.step P cfg i) inputs

variable {P cfg}

theorem lost_eq_nil_iff {s : Service} {inputs : List Input} :
    lost P cfg s inputs = [] ↔ StepsKeep P cfg s inputs := by
  induction inputs generalizing s with
  | nil => exact iff_of_true rfl trivial
  | cons i inputs ih => rw [lost, StepsKeep, List.append_eq_nil_iff, ih]

instance decidableStepsKeep : ∀ (s : Service) (inputs : List Input),
    Decidable (StepsKeep P cfg s inputs)
  | _, [] => isTrue trivial
  | s, i :: inputs =>
    haveI := decidableStepsKeep (s.step P cfg i) inputs
    inferInstanceAs (Decidable (_ ∧ _))

theorem held_of_pending_nil {s : Service} (h : s.pending = []) :
    held P s = (writtenBatches s.writes).flatten ++ s.sink.buffer := by
  rw [held, h]
  exact List.append_nil _

/-! ### One step -/

theorem held_of_quiet {s s' : Service} (h : Quiet s s') :
    held P s' = (writtenBatches s.writes).flatten ++ s.sink.buffer := by
  rw [held_of_pending_nil h.settled, h.sink, h.writes]

/-- A call of the sink moves events from the buffer to the written batches. -/
theorem held_called (s : Service) {r : CallResult} {events : List ChangeEvent}
    (h : (writtenBatches r.writes).flatten ++ r.sink.buffer = s.sink.buffer ++ events) :
    (writtenBatches (s.called r).writes).flatten ++ (s.called r).sink.buffer =
      (writtenBatches s.writes).flatten ++ s.sink.buffer ++ events := by
  show (writtenBatches (s.writes ++ r.writes)).flatten ++ r.sink.buffer = _
  rw [writtenBatches_append, List.flatten_append, List.append_assoc, h, List.append_assoc]

/-- A flush keeps what is held. -/
theorem held_flushTo (hretries : 1 ≤ cfg.sink.maxRetries) (s : Service) (call : CallEnv)
    {next : Control} (hnext : ∀ s' : Service, (s'.goto next).pending = [])
    {failed : Service → Service} (hfailed : ∀ s' : Service, Quiet s' (failed s')) :
    held P (s.flushTo cfg call next failed) = (writtenBatches s.writes).flatten ++ s.sink.buffer ∧
      (s.flushTo cfg call next failed).polled = s.polled ∧
      (s.flushTo cfg call next failed).decoded = s.decoded := by
  have hnone : (writtenBatches (s.sink.flush cfg.sink call).writes).flatten ++
      (s.sink.flush cfg.sink call).sink.buffer = s.sink.buffer ++ [] :=
    (SnowflakeSink.flush_conserves cfg.sink s.sink call hretries).trans (List.append_nil _).symm
  have hmoved := (held_called s hnone).trans (List.append_nil _)
  rcases flushTo_cases cfg s call next failed with ⟨e, -, hflush⟩ | ⟨lsn, -, hflush⟩
  · rw [hflush, held_of_quiet (hfailed _), (hfailed _).polled, (hfailed _).decoded]
    exact ⟨hmoved, rfl, rfl⟩
  · rw [hflush, held_of_pending_nil (hnext _)]
    exact ⟨hmoved, rfl, rfl⟩

theorem decodedEvents_cons (P : Platform) (parser : PgOutputParser) (c : Change)
    (rest : List Change) :
    decodedEvents P parser (c :: rest) = (returnedEvent (parser.parse P c.2 c.1).2).toList ++
      decodedEvents P (parser.parse P c.2 c.1).1 rest := by
  obtain ⟨lsn, data⟩ := c
  rw [decodedEvents, feed, List.filterMap_cons, decodedEvents]
  cases returnedEvent (parser.parse P data lsn).2 <;> rfl

/-- When `parse` returns, the loop is left exactly when `publish` raises. -/
theorem leavesLoop_iff {s : Service} {call : CallEnv} {c : Change} {event : Option ChangeEvent}
    (h : (s.parser.parse P c.2 c.1).2 = .ok event) :
    LeavesLoop P cfg s call c ↔
      ∃ e ∈ event, (s.sink.publish cfg.sink call e).result = .error .writeFailed := by
  have hbegin : ¬ BeginOutOfRange c.2 := fun hb =>
    nomatch h.symm.trans ((parse_error_iff P s.parser c.2 c.1 _).mpr ⟨rfl, hb⟩)
  simp only [LeavesLoop, hbegin, false_or, h, returnedEvent, SnowflakeSink.publish_error_iff]

/-- **One change of a polled list**: its event goes to the sink; when the loop is left here, the rest
of the list is dropped. -/
theorem held_processChange (hretries : 1 ≤ cfg.sink.maxRetries) (s : Service) (call : CallEnv)
    (c : Change) (rest : List Change) :
    held P (s.processChange P cfg call c rest) ++
        (if LeavesLoop P cfg s call c then
          replicated (decodedEvents P (s.parser.parse P c.2 c.1).1 rest) else []) =
      (writtenBatches s.writes).flatten ++ s.sink.buffer ++
        replicated (decodedEvents P s.parser (c :: rest)) ∧
      (s.processChange P cfg call c rest).polled = s.polled ∧
      (s.processChange P cfg call c rest).decoded = s.decoded := by
  rw [decodedEvents_cons, replicated_append, ← List.append_assoc]
  rcases processChange_cases P cfg s call c rest with
    ⟨e, hparse, hs⟩ | ⟨event, hparse, hunmapped, hs⟩ | ⟨event, hparse, hmapped, hs⟩
  · have hquiet := quiet_afterError cfg (s.withParser (s.parser.parse P c.2 c.1).1)
    have hleaves : LeavesLoop P cfg s call c := Or.inl ((parse_error_iff _ _ _ _ _).mp hparse).2
    rw [hs, held_of_quiet hquiet, hquiet.polled, hquiet.decoded, if_pos hleaves, hparse]
    exact ⟨congrArg (· ++ _) (List.append_nil _).symm, rfl, rfl⟩
  · have hstays : ¬ LeavesLoop P cfg s call c := by
      rw [leavesLoop_iff hparse]
      rintro ⟨e, he, hraise⟩
      exact hunmapped e he ((SnowflakeSink.publish_error_iff _ _ _ _).mp hraise).1
    have hnone : replicated (returnedEvent (.ok event)).toList = [] := by
      cases event with
      | none => rfl
      | some e => exact replicated_unmapped (hunmapped e rfl)
    rw [hs, if_neg hstays, hparse, hnone, List.append_nil, List.append_nil]
    exact ⟨rfl, rfl, rfl⟩
  · -- the event is buffered, whether its `publish` raises or returns
    have hmoved := held_called (s.withParser (s.parser.parse P c.2 c.1).1)
      (((SinkCall.publish call event).conserves hretries s.sink).trans
        (congrArg _ (replicated_mapped hmapped)))
    rw [hparse, returnedEvent, Option.toList_some, replicated_mapped hmapped]
    rcases hs with ⟨e, hresult, hs⟩ | ⟨lsn, hresult, hs⟩
    · cases e
      have hleaves : LeavesLoop P cfg s call c :=
        (leavesLoop_iff hparse).mpr ⟨event, rfl, hresult⟩
      have hquiet := quiet_afterError cfg
        ((s.withParser (s.parser.parse P c.2 c.1).1).called (s.sink.publish cfg.sink call event))
      rw [hs, held_of_quiet hquiet, hquiet.polled, hquiet.decoded, if_pos hleaves]
      exact ⟨congrArg (· ++ _) hmoved, rfl, rfl⟩
    · have hstays : ¬ LeavesLoop P cfg s call c := by
        rw [leavesLoop_iff hparse]
        rintro ⟨e, he, hraise⟩
        rw [Option.mem_some_iff] at he
        rw [← he, hresult] at hraise
        cases hraise
      rw [hs, if_neg hstays, List.append_nil]
      exact ⟨congrArg (· ++ _) hmoved, rfl, rfl⟩

/-- Only a step from inside a polled list drops anything. -/
theorem dropped_of_pending_nil {s : Service} (h : s.pending = []) (i : Input) :
    dropped P cfg s i = [] := by
  cases i with
  | signal => rfl
  | proceed env =>
    rw [dropped]
    split
    · next c rest hcontrol =>
      rw [pending, hcontrol] at h
      cases h
    · rfl

/-- **One step accounts for every change**: what was held, and what a poll adds, is held or
dropped. -/
theorem step_accounts (hretries : 1 ≤ cfg.sink.maxRetries) (s : Service) (i : Input) :
    ∃ changes, (s.step P cfg i).polled = s.polled ++ changes ∧
      (s.step P cfg i).decoded = s.decoded ++ decodedEvents P s.parser changes ∧
      held P (s.step P cfg i) ++ dropped P cfg s i =
        held P s ++ replicated (decodedEvents P s.parser changes) := by
  -- a step that polls nothing
  have hsame : ∀ {s' : Service}, s'.polled = s.polled → s'.decoded = s.decoded →
      held P s' ++ dropped P cfg s i = held P s →
      ∃ changes, s'.polled = s.polled ++ changes ∧
        s'.decoded = s.decoded ++ decodedEvents P s.parser changes ∧
        held P s' ++ dropped P cfg s i =
          held P s ++ replicated (decodedEvents P s.parser changes) := by
    intro s' hpolled hdecoded hheld
    refine ⟨[], hpolled.trans (List.append_nil _).symm, hdecoded.trans (List.append_nil _).symm, ?_⟩
    rw [hheld]
    exact (List.append_nil _).symm
  cases i with
  | signal => exact hsame rfl rfl (List.append_nil _)
  | proceed env =>
    have hstep := step_case P cfg s env
    generalize s.step P cfg (.proceed env) = s' at hstep ⊢
    cases hstep with
    | quiet hnil h =>
      refine hsame h.polled h.decoded ?_
      rw [dropped_of_pending_nil hnil, held_of_quiet h, held_of_pending_nil hnil, List.append_nil]
    | poll c rest hcontrol hpoll =>
      have hnil : s.pending = [] := by rw [pending, hcontrol]
      refine ⟨c :: rest, rfl, rfl, ?_⟩
      rw [dropped_of_pending_nil hnil, held_of_pending_nil hnil]
      exact List.append_nil _
    | shutdownBreak c rest hcontrol hshutdown =>
      refine hsame rfl rfl ?_
      rw [held_of_pending_nil rfl, held, dropped, pending, hcontrol]
      exact congrArg (_ ++ ·) (if_pos hshutdown)
    | process c rest hcontrol hrunning =>
      obtain ⟨hheld, hpolled, hdecoded⟩ :=
        held_processChange (P := P) hretries s env.call c rest
      refine hsame hpolled hdecoded ?_
      rw [dropped, hcontrol]
      dsimp only
      rw [if_neg (by simp [hrunning]), hheld, held, pending, hcontrol]
    | flush next failed hnil hrunning hnext hfailed =>
      obtain ⟨hheld, hpolled, hdecoded⟩ :=
        held_flushTo (P := P) hretries s env.call hnext hfailed
      refine hsame hpolled hdecoded ?_
      rw [dropped_of_pending_nil hnil, hheld, held_of_pending_nil hnil, List.append_nil]

/-! ### Runs -/

/-- **Runs account for every change.** -/
theorem run_accounts (hretries : 1 ≤ cfg.sink.maxRetries) (s : Service) (inputs : List Input) :
    (held P (run P cfg s inputs) ++ lost P cfg s inputs ++ replicated s.decoded).Perm
      (held P s ++ replicated (run P cfg s inputs).decoded) := by
  induction inputs generalizing s with
  | nil => rw [lost, List.append_nil, run_nil]
  | cons i inputs ih =>
    obtain ⟨changes, -, hdecoded, hstep⟩ := step_accounts (P := P) hretries s i
    have hrest := ih (s.step P cfg i)
    rw [hdecoded, replicated_append] at hrest
    rw [List.perm_iff_count] at hrest ⊢
    intro e
    have hcount := congrArg (List.count e) hstep
    have hrest := hrest e
    rw [run_cons, lost]
    simp only [List.count_append] at hcount hrest ⊢
    omega

/-- **Runs that drop nothing keep the order of the stream.** -/
theorem run_keeps (hretries : 1 ≤ cfg.sink.maxRetries) {s : Service} {inputs : List Input}
    (hkeep : StepsKeep P cfg s inputs) (h : held P s = replicated s.decoded) :
    held P (run P cfg s inputs) = replicated (run P cfg s inputs).decoded := by
  induction inputs generalizing s with
  | nil => exact h
  | cons i inputs ih =>
    obtain ⟨hdropped, hkeep⟩ := hkeep
    obtain ⟨changes, -, hdecoded, hstep⟩ := step_accounts (P := P) hretries s i
    rw [hdropped, List.append_nil, h, ← replicated_append, ← hdecoded] at hstep
    exact ih hkeep hstep

/-- From the start of the service. -/
theorem start_accounts (hretries : 1 ≤ cfg.sink.maxRetries) (now : ℚ) (inputs : List Input) :
    (held P (run P cfg (start now) inputs) ++ lost P cfg (start now) inputs).Perm
      (replicated (run P cfg (start now) inputs).decoded) := by
  have h := run_accounts (P := P) hretries (start now) inputs
  rwa [show replicated (start now).decoded = [] from rfl, List.append_nil,
    show held P (start now) = [] from rfl, List.nil_append] at h

/-- Without attempts nothing is ever written. -/
theorem writes_of_no_attempts (h : cfg.sink.maxRetries ≤ 0) (now : ℚ) (inputs : List Input) :
    (run P cfg (start now) inputs).writes = [] := by
  refine run_invariant (I := fun s => s.writes = []) rfl fun i _ s hs => ?_
  rcases step_calls P cfg s i with ⟨-, hwrites⟩ | ⟨env, c, -, -, -, hwrites⟩
  · rw [hwrites, hs]
  · rw [hwrites, hs, c.writes_of_no_attempts h]
    rfl

/-- The service stops with an empty buffer. -/
theorem buffer_of_stopped (now : ℚ) (inputs : List Input) :
    (run P cfg (start now) inputs).control = .stopped →
      (run P cfg (start now) inputs).sink.buffer = [] := by
  refine run_invariant (I := fun s => s.control = .stopped → s.sink.buffer = []) nofun
    fun i _ s hs => ?_
  cases i with
  | signal => exact hs
  | proceed env =>
    have hstep := step_case P cfg s env
    generalize s.step P cfg (.proceed env) = s' at hstep ⊢
    cases hstep with
    | quiet hnil h =>
      intro hstopped
      rw [h.sink]
      exact hs (h.stopped hstopped)
    | poll c rest hcontrol hpoll => exact nofun
    | shutdownBreak c rest hcontrol hshutdown => exact nofun
    | process c rest hcontrol hrunning =>
      intro hstopped
      rcases processChange_cases P cfg s env.call c rest with
        ⟨e, -, h⟩ | ⟨event, -, -, h⟩ | ⟨event, -, -, ⟨e, -, h⟩ | ⟨lsn, -, h⟩⟩
      · rw [h] at hstopped
        have hback := (quiet_afterError cfg _).stopped hstopped
        exact absurd (hcontrol.symm.trans hback) nofun
      · rw [h] at hstopped
        cases hstopped
      · rw [h] at hstopped
        have hback := (quiet_afterError cfg _).stopped hstopped
        exact absurd (hcontrol.symm.trans hback) nofun
      · rw [h] at hstopped
        cases hstopped
    | flush next failed hnil hrunning hnext hfailed =>
      intro hstopped
      rcases flushTo_cases cfg s env.call next failed with ⟨e, -, h⟩ | ⟨lsn, hok, h⟩
      · rw [h] at hstopped
        exact absurd ((hfailed _).stopped hstopped) hrunning
      · rw [h]
        exact s.sink.flush_ok cfg.sink env.call hok

end Service

open Service

/-! ### Reconnects and shutdown -/

/-- **Reconnects keep changes exactly when no polled list is left early with changes in it.**  At the
head of either loop every polled change of a mapped table is written or buffered if and only if
every step so far met the condition. -/
theorem reconnects_keep_changes_iff (P : Platform) (cfg : ServiceConfig)
    (hretries : 1 ≤ cfg.sink.maxRetries) (now : ℚ) (inputs : List Input)
    (hhead : (run P cfg (start now) inputs).control = .outerHead ∨
      (run P cfg (start now) inputs).control = .innerHead) :
    (replicated (run P cfg (start now) inputs).decoded).Subperm
        ((writtenBatches (run P cfg (start now) inputs).writes).flatten ++
          (run P cfg (start now) inputs).sink.buffer) ↔
      StepsKeep P cfg (start now) inputs := by
  have hnil : (run P cfg (start now) inputs).pending = [] := by
    rw [pending]
    rcases hhead with h | h <;> rw [h]
  have haccounts := start_accounts (P := P) hretries now inputs
  rw [held_of_pending_nil hnil] at haccounts
  rw [← lost_eq_nil_iff]
  constructor
  · intro hsub
    have hlen := hsub.length_le
    rw [← haccounts.length_eq, List.length_append] at hlen
    exact List.length_eq_zero_iff.mp (by omega)
  · intro hlost
    rw [hlost, List.append_nil] at haccounts
    exact haccounts.symm.subperm

/-- A transaction that inserts two devices. -/
def deviceStream : List (ℕ × Message) :=
  [(100, .begin 500 0 42),
    (101, .relation 7 "public" "customer_devices" 1 [⟨1, "id", 23, 0⟩, ⟨0, "label", 25, 0⟩]),
    (102, .insert 7 [.text "1", .text "tv"]),
    (103, .insert 7 [.text "2", .text "radio"])]

def deviceChanges : List Change := encodeStream deviceStream

/-- A step in which the connection is opened, the poll returns `changes`, and every write attempt
succeeds, or every one fails. -/
def sampleStep (ok : Bool) (changes : List Change) : Input :=
  .proceed ⟨true, some changes, sampleEnv ok⟩

/-- One device to a batch: the write of the second fails, and it stays in the buffer. -/
theorem reconnects_keep_changes_devices :
    let inputs := List.replicate 3 (sampleStep true []) ++
      List.replicate 4 (sampleStep true deviceChanges) ++ [sampleStep false []]
    let s := run .ascii ⟨⟨1, 10, 1⟩, 5, 120⟩ (start 0) inputs
    (replicated s.decoded).Subperm ((writtenBatches s.writes).flatten ++ s.sink.buffer) :=
  (reconnects_keep_changes_iff .ascii ⟨⟨1, 10, 1⟩, 5, 120⟩ (by decide) 0 _
    (Or.inl (by decide +kernel))).mpr (by decide +kernel)

/-- The write of the first fails, and the second is in no place. -/
theorem failed_publish_loses_change :
    let inputs := List.replicate 3 (sampleStep true []) ++
      List.replicate 3 (sampleStep true deviceChanges) ++ [sampleStep false []]
    let s := run .ascii ⟨⟨1, 10, 1⟩, 5, 120⟩ (start 0) inputs
    s.control = .outerHead ∧ s.shutdown = false ∧
      ¬ (replicated s.decoded).Subperm ((writtenBatches s.writes).flatten ++ s.sink.buffer) := by
  refine ⟨by decide +kernel, by decide +kernel, fun h => ?_⟩
  exact absurd h.length_le (by decide +kernel)

/-- **Shutdown drains what was consumed exactly when no polled list is left early with changes in
it**, and a write is attempted at all. -/
theorem shutdown_drains_iff (P : Platform) (cfg : ServiceConfig) (now : ℚ) (inputs : List Input)
    (hstopped : (run P cfg (start now) inputs).control = .stopped) :
    (writtenBatches (run P cfg (start now) inputs).writes).flatten.Perm
        (replicated (run P cfg (start now) inputs).decoded) ↔
      (1 ≤ cfg.sink.maxRetries ∧ StepsKeep P cfg (start now) inputs) ∨
        replicated (run P cfg (start now) inputs).decoded = [] := by
  by_cases hretries : 1 ≤ cfg.sink.maxRetries
  · have hnil : (run P cfg (start now) inputs).pending = [] := by rw [pending, hstopped]
    have haccounts := start_accounts (P := P) hretries now inputs
    rw [held_of_pending_nil hnil, buffer_of_stopped now inputs hstopped, List.append_nil]
      at haccounts
    rw [← lost_eq_nil_iff]
    constructor
    · intro hperm
      have hlen := haccounts.length_eq
      rw [← hperm.length_eq, List.length_append] at hlen
      exact Or.inl ⟨hretries, List.length_eq_zero_iff.mp (by omega)⟩
    · rintro (⟨-, hlost⟩ | hnone)
      · rwa [hlost, List.append_nil] at haccounts
      · rw [hnone] at haccounts ⊢
        rw [(List.append_eq_nil_iff.mp haccounts.eq_nil).1]
  · rw [writes_of_no_attempts (by omega)]
    constructor
    · exact fun hperm => Or.inr hperm.symm.eq_nil
    · rintro (⟨h, -⟩ | hnone)
      · exact absurd h hretries
      · rw [hnone]
        rfl

/-- The signal arrives behind the last change of the list. -/
theorem shutdown_drains_devices :
    let inputs := List.replicate 3 (sampleStep true []) ++
      List.replicate 5 (sampleStep true deviceChanges) ++ [.signal] ++
      List.replicate 6 (sampleStep true [])
    let s := run .ascii ⟨⟨10, 10, 5⟩, 5, 120⟩ (start 0) inputs
    (writtenBatches s.writes).flatten.Perm (replicated s.decoded) :=
  (shutdown_drains_iff .ascii ⟨⟨10, 10, 5⟩, 5, 120⟩ 0 _ (by decide +kernel)).mpr
    (Or.inl ⟨by decide, by decide +kernel⟩)

/-- **The signal arrives between the two inserts**: no write fails, and the second device is never
written. -/
theorem shutdown_loses_change :
    let inputs := List.replicate 3 (sampleStep true []) ++
      List.replicate 4 (sampleStep true deviceChanges) ++ [.signal] ++
      List.replicate 5 (sampleStep true [])
    let s := run .ascii ⟨⟨10, 10, 5⟩, 5, 120⟩ (start 0) inputs
    s.control = .stopped ∧ (∀ w ∈ s.writes, w.2.succeeded = true) ∧
      ¬ (writtenBatches s.writes).flatten.Perm (replicated s.decoded) := by
  refine ⟨by decide +kernel, by decide +kernel, fun h => ?_⟩
  exact absurd h.length_eq (by decide +kernel)

end PgSnowflakeCdc
