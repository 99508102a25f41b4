import PgSnowflakeCdc.Service.Loop

/-!
# The iterations of the outer loop (`run`)

Each entry of the outer loop body is an iteration: it opens its connection or not, completes poll cycles
or not, and when it fails the error branch sleeps.

* `Turn`, `step_turn` — what a step does to the variables of the loop: enter the body, open the
  connection, raise, or none of these;
* `Iteration`, `iterations` — what is seen of the iterations of a run;
* `Recorded` — what the loop variables are in terms of the iterations; `recorded_run`.
-/

namespace PgSnowflakeCdc

namespace Service

variable (P : Platform) (cfg : ServiceConfig)

/-! ### One step -/

/-- The `try` body raises here: opening the connection, the poll, `parse`, `publish` or a flush. -/
def Raises (s : Service) : Input → Prop
  | .signal => False
  | .proceed env =>
    match s.control with
    | .connecting => env.connects = false
    | .polling => env.poll = none
    | .iterating (c :: _) => s.shutdown = false ∧
        ((∃ e, (s.parser.parse P c.2 c.1).2 = .error e) ∨
          ∃ event, (s.parser.parse P c.2 c.1).2 = .ok (some event) ∧ IsMapped event.table ∧
            ∃ e, (s.sink.publish cfg.sink env.call event).result = .error e)
    | .idleFlush => ∃ e, (s.sink.flush cfg.sink env.call).result = .error e
    | .innerFlush => ∃ e, (s.sink.flush cfg.sink env.call).result = .error e
    | _ => False

/-- Where an iteration is. -/
inductive Stage where
  /-- At the head of the outer loop. -/
  | between : Stage
  | opening : Stage
  /-- Inside the connection block. -/
  | streaming : Stage
  /-- Behind the outer loop. -/
  | done : Stage
deriving DecidableEq

def stage (s : Service) : Stage :=
  match s.control with
  | .outerHead => .between
  | .connecting => .opening
  | .innerHead | .polling | .iterating _ | .idleFlush | .innerFlush => .streaming
  | .finalFlush | .stopped | .crashed => .done

theorem stage_outerHead {s : Service} (h : s.control = .outerHead) : s.stage = .between := by
  simp [stage, h]

theorem stage_connecting {s : Service} (h : s.control = .connecting) : s.stage = .opening := by
  simp [stage, h]

theorem control_of_opening {s : Service} (h : s.stage = .opening) : s.control = .connecting := by
  cases hc : s.control <;> simp [stage, hc] at h
  rfl

theorem stage_crashed {s : Service} (h : s.control = .crashed) : s.stage = .done := by
  simp [stage, h]

/-- Outside the connection block control is at neither end of the inner loop. -/
theorem control_of_not_streaming {s : Service} (h : s.stage ≠ .streaming) :
    s.control ≠ .innerHead ∧ s.control ≠ .innerFlush := by
  constructor
  · intro hc
    simp [stage, hc] at h
  · intro hc
    simp [stage, hc] at h

/-- The variables that the back-off and the counters use are the same. -/
structure SameCounters (s s' : Service) : Prop where
  attempt : s'.attempt = s.attempt
  delays : s'.delays = s.delays
  openings : s'.openings = s.openings
  reconnects : s'.reconnects = s.reconnects
  shutdown : s'.shutdown = s.shutdown

theorem SameCounters.refl (s : Service) : SameCounters s s := ⟨rfl, rfl, rfl, rfl, rfl⟩

/-- Where control may go without an exception. -/
inductive Passes (s s' : Service) : Prop
  | on (h : s.stage = .streaming) (h' : s'.stage = .streaming)
      (hflush : s'.control = .innerFlush → s.shutdown = true) : Passes s s'
  | leave (h : s.control = .innerFlush) (h' : s'.control = .outerHead) : Passes s s'
  | finish (h : s.stage = .between ∨ s.stage = .done) (h' : s'.stage = .done) : Passes s s'

theorem Passes.stay {s s' : Service} (h : s.stage = .streaming) (h' : s'.stage = .streaming)
    (hflush : s'.control ≠ .innerFlush) : Passes s s' :=
  .on h h' fun hcontrol => absurd hcontrol hflush

/-- What a step does to the loop: it enters the body, opens the connection, raises, or passes. -/
inductive Turn (s : Service) (env : StepEnv) : Service → Prop
  | enter (hcontrol : s.control = .outerHead) (hrunning : s.shutdown = false) :
      Turn s env s.openStream
  | opens (hcontrol : s.control = .connecting) (hconnects : env.connects = true) :
      Turn s env ({ s with attempt := 0 }.goto .innerHead)
  | raises {s₁ : Service} (hraises : Raises P cfg s (.proceed env)) (hsame : SameCounters s s₁)
      (hstage : s.stage = .opening ∨ s.stage = .streaming) : Turn s env (s₁.afterError cfg)
  | passes {s' : Service} (hraises : ¬ Raises P cfg s (.proceed env)) (hsame : SameCounters s s')
      (hpasses : Passes s s') : Turn s env s'

variable {P cfg}

theorem sameCounters_called (s : Service) (r : CallResult) : SameCounters s (s.called r) :=
  ⟨rfl, rfl, rfl, rfl, rfl⟩

/-! ### The error branch -/

@[simp] theorem openings_afterError (s : Service) : (s.afterError cfg).openings = s.openings := by
  rw [afterError]
  split
  · rfl
  · rfl

@[simp] theorem attempt_afterError (s : Service) : (s.afterError cfg).attempt = s.attempt := by
  rw [afterError]
  split
  · rfl
  · rfl

@[simp] theorem reconnects_afterError (s : Service) :
    (s.afterError cfg).reconnects = s.reconnects := by
  rw [afterError]
  split
  · rfl
  · rfl

theorem control_afterError (s : Service) :
    (s.afterError cfg).control = if s.backoff cfg < 0 then .crashed else .outerHead := by
  rw [afterError]
  split
  · rfl
  · rfl

theorem delays_afterError (s : Service) :
    (s.afterError cfg).delays =
      s.delays ++ (if s.backoff cfg < 0 then none else some (s.backoff cfg)).toList := by
  rw [afterError]
  split
  · exact (List.append_nil _).symm
  · rfl

/-- The connection block is left. -/
theorem stage_afterError (s : Service) :
    (s.afterError cfg).stage = if s.backoff cfg < 0 then .done else .between := by
  split
  · next hneg => exact stage_crashed (by rw [control_afterError, if_pos hneg])
  · next hneg => exact stage_outerHead (by rw [control_afterError, if_neg hneg])

theorem stage_afterError_ne (s : Service) : (s.afterError cfg).stage ≠ .streaming := by
  rw [stage_afterError]
  split
  · simp
  · simp

/-! ### What a step does to the loop -/

/-- A flush inside the `try` body. -/
theorem turn_flushTo {s : Service} {env : StepEnv} {next : Control} (hstage : s.stage = .streaming)
    (hraises : Raises P cfg s (.proceed env) ↔
      ∃ e, (s.sink.flush cfg.sink env.call).result = .error e)
    (hpasses : ∀ s' : Service, Passes s (s'.goto next)) :
    Turn P cfg s env (s.flushTo cfg env.call next (afterError cfg)) := by
  rcases flushTo_cases cfg s env.call next (afterError cfg) with ⟨e, hresult, h⟩ | ⟨lsn, hresult, h⟩
  · rw [h]
    exact .raises (hraises.mpr ⟨e, hresult⟩) (sameCounters_called s _) (Or.inr hstage)
  · rw [h]
    refine .passes ?_ ⟨rfl, rfl, rfl, rfl, rfl⟩ (hpasses _)
    rw [hraises, hresult]
    rintro ⟨e, he⟩
    cases he

/-- A change of the polled list. -/
theorem turn_processChange {s : Service} {env : StepEnv} {c : Change} {rest : List Change}
    (hcontrol : s.control = .iterating (c :: rest)) (hrunning : s.shutdown = false) :
    Turn P cfg s env (s.processChange P cfg env.call c rest) := by
  have hstage : s.stage = .streaming := by simp [stage, hcontrol]
  rcases processChange_cases P cfg s env.call c rest with
    ⟨e, hparse, h⟩ | ⟨event, hparse, hunmapped, h⟩ | ⟨event, hparse, hmapped, h⟩
  · rw [h]
    refine .raises ?_ ⟨rfl, rfl, rfl, rfl, rfl⟩ (Or.inr hstage)
    simp [Raises, hcontrol, hrunning, hparse]
  · rw [h]
    refine .passes ?_ ⟨rfl, rfl, rfl, rfl, rfl⟩ (.stay hstage rfl (by simp))
    simp only [Raises, hcontrol, hparse]
    rintro ⟨-, ⟨e, he⟩ | ⟨event', hevent, hmapped, -⟩⟩
    · cases he
    · exact hunmapped event' (Except.ok.inj hevent) hmapped
  · rcases h with ⟨e, hresult, h⟩ | ⟨lsn, hresult, h⟩
    · rw [h]
      refine .raises ?_ ⟨rfl, rfl, rfl, rfl, rfl⟩ (Or.inr hstage)
      simp only [Raises, hcontrol]
      exact ⟨hrunning, Or.inr ⟨event, hparse, hmapped, e, hresult⟩⟩
    · rw [h]
      refine .passes ?_ ⟨rfl, rfl, rfl, rfl, rfl⟩ (.stay hstage rfl (by simp))
      simp [Raises, hcontrol, hparse, hresult]

/-- **What a step does to the loop.** -/
theorem step_turn (s : Service) (env : StepEnv) :
    Turn P cfg s env (s.step P cfg (.proceed env)) := by
  rw [step]
  cases hcontrol : s.control with
  | outerHead =>
      dsimp only
      split
      · refine .passes (by simp [Raises, hcontrol]) ⟨rfl, rfl, rfl, rfl, rfl⟩ (.finish ?_ rfl)
        simp [stage, hcontrol]
      · next hrunning => exact .enter hcontrol (by simpa using hrunning)
  | connecting =>
      dsimp only
      split
      · next hconnects => exact .opens hcontrol hconnects
      · next hconnects =>
          refine .raises ?_ (.refl s) (by simp [stage, hcontrol])
          simpa [Raises, hcontrol] using hconnects
  | innerHead =>
      dsimp only
      split
      · next hshutdown =>
          refine .passes (by simp [Raises, hcontrol]) ⟨rfl, rfl, rfl, rfl, rfl⟩ (.on ?_ rfl ?_)
          · simp [stage, hcontrol]
          · exact fun _ => hshutdown
      · refine .passes (by simp [Raises, hcontrol]) ⟨rfl, rfl, rfl, rfl, rfl⟩ (.stay ?_ rfl (by simp))
        simp [stage, hcontrol]
  | polling =>
      have hstage : s.stage = .streaming := by simp [stage, hcontrol]
      dsimp only
      cases hpoll : env.poll with
      | none => exact .raises (by simp [Raises, hcontrol, hpoll]) (.refl s) (Or.inr hstage)
      | some changes =>
          have hraises : ¬ Raises P cfg s (.proceed env) := by simp [Raises, hcontrol, hpoll]
          cases changes with
          | nil =>
              exact .passes hraises ⟨rfl, rfl, rfl, rfl, rfl⟩
                (.stay hstage rfl (by simp [pollChanges]))
          | cons c rest =>
              exact .passes hraises ⟨rfl, rfl, rfl, rfl, rfl⟩
                (.stay hstage rfl (by simp [pollChanges]))
  | iterating changes =>
      have hstage : s.stage = .streaming := by simp [stage, hcontrol]
      cases changes with
      | nil =>
          exact .passes (by simp [Raises, hcontrol]) ⟨rfl, rfl, rfl, rfl, rfl⟩
            (.stay hstage rfl (by simp))
      | cons c rest =>
          dsimp only
          split
          · next hshutdown =>
              exact .passes (by simp [Raises, hcontrol, hshutdown]) ⟨rfl, rfl, rfl, rfl, rfl⟩
                (.stay hstage rfl (by simp))
          · next hrunning => exact turn_processChange hcontrol (by simpa using hrunning)
  | idleFlush =>
      refine turn_flushTo (by simp [stage, hcontrol]) (by simp [Raises, hcontrol]) fun s' => ?_
      exact .stay (by simp [stage, hcontrol]) rfl (by simp)
  | innerFlush =>
      refine turn_flushTo (by simp [stage, hcontrol]) (by simp [Raises, hcontrol]) fun s' => ?_
      exact .leave hcontrol rfl
  | finalFlush =>
      have hstage : s.stage = .done := by simp [stage, hcontrol]
      rcases flushTo_cases cfg s env.call .stopped (goto · .crashed) with
        ⟨e, -, h⟩ | ⟨lsn, -, h⟩
      · dsimp only
        rw [h]
        exact .passes (by simp [Raises, hcontrol]) ⟨rfl, rfl, rfl, rfl, rfl⟩
          (.finish (Or.inr hstage) rfl)
      · dsimp only
        rw [h]
        exact .passes (by simp [Raises, hcontrol]) ⟨rfl, rfl, rfl, rfl, rfl⟩
          (.finish (Or.inr hstage) rfl)
  | stopped =>
      have hstage : s.stage = .done := by simp [stage, hcontrol]
      exact .passes (by simp [Raises, hcontrol]) (.refl s) (.finish (Or.inr hstage) hstage)
  | crashed =>
      have hstage : s.stage = .done := by simp [stage, hcontrol]
      exact .passes (by simp [Raises, hcontrol]) (.refl s) (.finish (Or.inr hstage) hstage)

/-! ### The iterations of a run -/

/-- What is seen of an iteration: whether its connection was opened, whether a poll cycle with its flush
was completed, and the delay slept when it failed. -/
structure Iteration where
  opened : Bool
  served : Bool
  slept : Option ℚ
deriving DecidableEq

/-- The step completes a poll cycle. -/
def CompletesCycle (s s' : Service) : Prop :=
  (s.control = .idleFlush ∨ s.control = .iterating []) ∧ s'.control = .innerHead

instance (s s' : Service) : Decidable (CompletesCycle s s') :=
  inferInstanceAs (Decidable ((_ ∨ _) ∧ _))

/-- The delay the step sleeps, if it does. -/
def newDelay (s s' : Service) : Option ℚ := (s'.delays.drop s.delays.length).head?

/-- What a step from `s` to `s'` adds to an iteration. -/
def Iteration.observe (s s' : Service) (it : Iteration) : Iteration where
  opened := it.opened || decide (s.control = .connecting ∧ s'.control = .innerHead)
  served := it.served || decide (CompletesCycle s s')
  slept := (newDelay s s').or it.slept

/-- The iterations, newest first, after a step from `s` to `s'`. -/
def observe (s s' : Service) (its : List Iteration) : List Iteration :=
  if s.openings < s'.openings then ⟨false, false, none⟩ :: its
  else its.modifyHead (Iteration.observe s s')

variable (P cfg) in
/-- The service with the iterations so far. -/
def monitor (i : Input) (m : Service × List Iteration) : Service × List Iteration :=
  (m.1.step P cfg i, observe m.1 (m.1.step P cfg i) m.2)

variable (P cfg) in
/-- The iterations of a run, newest first. -/
def iterations (s : Service) (inputs : List Input) : List Iteration :=
  (Replay.run (monitor P cfg) inputs (s, [])).2

/-- The monitor does not disturb the service. -/
theorem monitor_fst (s : Service) (its : List Iteration) (inputs : List Input) :
    (Replay.run (monitor P cfg) inputs (s, its)).1 = run P cfg s inputs := by
  induction inputs generalizing s its with
  | nil => rfl
  | cons i inputs ih => exact ih (s.step P cfg i) _

theorem iterations_snoc (s : Service) (inputs : List Input) (i : Input) :
    iterations P cfg s (inputs ++ [i]) =
      observe (run P cfg s inputs) ((run P cfg s inputs).step P cfg i)
        (iterations P cfg s inputs) := by
  rw [iterations, Replay.run_append]
  show observe (Replay.run (monitor P cfg) inputs (s, [])).1 _ _ = _
  rw [monitor_fst]
  rfl

/-! ### What a step adds -/

theorem newDelay_of_eq {s s' : Service} (h : s'.delays = s.delays) : newDelay s s' = none := by
  simp [newDelay, h]

/-- The error branch sleeps, unless the delay is negative. -/
theorem newDelay_afterError {s s₁ : Service} (h : SameCounters s s₁) :
    newDelay s (s₁.afterError cfg) = if s₁.backoff cfg < 0 then none else some (s₁.backoff cfg) := by
  rw [newDelay, delays_afterError, h.delays, List.drop_left]
  split
  · rfl
  · rfl

/-- A step that opens no connection, completes no cycle and does not sleep adds nothing. -/
theorem Iteration.observe_eq {s s' : Service}
    (hopens : ¬ (s.control = .connecting ∧ s'.control = .innerHead))
    (hcycle : ¬ CompletesCycle s s') (hdelays : s'.delays = s.delays) (it : Iteration) :
    it.observe s s' = it := by
  simp [Iteration.observe, hopens, hcycle, newDelay_of_eq hdelays]

theorem observe_eq {s s' : Service} (hopenings : s'.openings = s.openings)
    (hopens : ¬ (s.control = .connecting ∧ s'.control = .innerHead))
    (hcycle : ¬ CompletesCycle s s') (hdelays : s'.delays = s.delays) (its : List Iteration) :
    observe s s' its = its := by
  rw [observe, if_neg (by omega)]
  cases its with
  | nil => rfl
  | cons it older =>
      rw [List.modifyHead_cons, Iteration.observe_eq hopens hcycle hdelays]

theorem observe_cons {s s' : Service} (hopenings : s'.openings = s.openings) (it : Iteration)
    (older : List Iteration) : observe s s' (it :: older) = it.observe s s' :: older := by
  rw [observe, if_neg (by omega), List.modifyHead_cons]

/-- An exception in an iteration that has not failed yet. -/
theorem observe_afterError (s s₁ : Service) {it : Iteration} (hawake : it.slept = none) :
    it.observe s (s₁.afterError cfg) = ⟨it.opened, it.served, newDelay s (s₁.afterError cfg)⟩ := by
  have hinner := (control_of_not_streaming (@stage_afterError_ne cfg s₁)).1
  simp [Iteration.observe, CompletesCycle, hinner, hawake]

/-! ### The loop variables in terms of the iterations -/

/-- How many of the newest iterations in a row have not opened their connection. -/
def connectFailures : List Iteration → ℕ
  | [] => 0
  | it :: older => if it.opened then 0 else connectFailures older + 1

/-- An entry is counted as a reconnect when the iteration before has not opened its connection. -/
def countedReconnects : List Iteration → ℕ
  | [] => 0
  | _ :: older => countedReconnects older + if connectFailures older = 0 then 0 else 1

/-- The delays slept, oldest first. -/
def sleptDelays : List Iteration → List ℚ
  | [] => []
  | it :: older => sleptDelays older ++ it.slept.toList

variable (cfg) in
/-- The delay slept when `attempt` stands at `n`. -/
def delayAfter (n : ℕ) : ℚ :=
  min (cfg.backoffBase * (2 : ℚ) ^ min ((n : ℤ) - 1) 6) cfg.backoffMax

/-- What the newest iteration looks like, by where control is. -/
def Stage.Fits (shutdown : Bool) (its : List Iteration) : Stage → Prop
  | .between => shutdown = true ∨ ∀ it ∈ its.head?, it.slept ≠ none
  | .opening => ∃ older, its = ⟨false, false, none⟩ :: older
  | .streaming => ∃ served older, its = ⟨true, served, none⟩ :: older
  | .done => True

variable (cfg) in
/-- **The loop variables in terms of the iterations.** -/
structure Recorded (s : Service) (its : List Iteration) : Prop where
  openings : s.openings = its.length
  attempt : s.attempt = connectFailures its
  reconnects : s.reconnects = countedReconnects its
  delays : s.delays = sleptDelays its
  slept : ∀ it older, it :: older <:+ its → ∀ d, it.slept = some d →
    d = delayAfter cfg (connectFailures (it :: older))
  served : ∀ it ∈ its, it.served = true → it.opened = true
  older : ∀ it ∈ its.tail, it.slept ≠ none
  innerFlush : s.control = .innerFlush → s.shutdown = true
  stage : s.stage.Fits s.shutdown its

theorem recorded_start (now : ℚ) : Recorded cfg (.start now) [] where
  openings := rfl
  attempt := rfl
  reconnects := rfl
  delays := rfl
  slept := by
    intro it older h
    cases List.eq_nil_of_suffix_nil h
  served := by simp
  older := by simp
  innerFlush := nofun
  stage := Or.inr (by simp)

/-- The newest iteration is seen further. -/
theorem Recorded.update {s s' : Service} {it it' : Iteration} {older : List Iteration}
    (h : Recorded cfg s (it :: older)) (hopenings : s'.openings = s.openings)
    (hreconnects : s'.reconnects = s.reconnects)
    (hattempt : s'.attempt = connectFailures (it' :: older))
    (hdelays : s'.delays = sleptDelays (it' :: older))
    (hslept : ∀ d, it'.slept = some d → d = delayAfter cfg (connectFailures (it' :: older)))
    (hserved : it'.served = true → it'.opened = true)
    (hflush : s'.control = .innerFlush → s'.shutdown = true)
    (hstage : s'.stage.Fits s'.shutdown (it' :: older)) : Recorded cfg s' (it' :: older) where
  openings := hopenings.trans h.openings
  attempt := hattempt
  reconnects := hreconnects.trans h.reconnects
  delays := hdelays
  slept := by
    intro it₁ older₁ hsuffix d hd
    rcases List.suffix_cons_iff.mp hsuffix with heq | hsuffix
    · obtain ⟨rfl, rfl⟩ := List.cons.inj heq
      exact hslept d hd
    · exact h.slept it₁ older₁ (hsuffix.trans (List.suffix_cons _ _)) d hd
  served := by
    intro it₁ hmem
    rcases List.mem_cons.mp hmem with rfl | hmem
    · exact hserved
    · exact h.served it₁ (List.mem_cons_of_mem _ hmem)
  older := h.older
  innerFlush := hflush
  stage := hstage

/-- Nothing is seen of the iterations. -/
theorem Recorded.keep {s s' : Service} {its : List Iteration} (h : Recorded cfg s its)
    (hopenings : s'.openings = s.openings) (hattempt : s'.attempt = s.attempt)
    (hreconnects : s'.reconnects = s.reconnects) (hdelays : s'.delays = s.delays)
    (hflush : s'.control = .innerFlush → s'.shutdown = true)
    (hstage : s'.stage.Fits s'.shutdown its) : Recorded cfg s' its :=
  ⟨hopenings.trans h.openings, hattempt.trans h.attempt, hreconnects.trans h.reconnects,
    hdelays.trans h.delays, h.slept, h.served, h.older, hflush, hstage⟩

theorem Recorded.signal {s : Service} {its : List Iteration} (h : Recorded cfg s its) :
    Recorded cfg (s.step P cfg .signal) (observe s (s.step P cfg .signal) its) := by
  have hopens : ¬ (s.control = .connecting ∧ (s.step P cfg .signal).control = .innerHead) := by
    rintro ⟨hc, hc'⟩
    cases hc.symm.trans hc'
  have hcycle : ¬ CompletesCycle s (s.step P cfg .signal) := by
    rintro ⟨hc | hc, hc'⟩
    · cases hc.symm.trans hc'
    · cases hc.symm.trans hc'
  have hkeep : observe s (s.step P cfg .signal) its = its := observe_eq rfl hopens hcycle rfl its
  rw [hkeep]
  refine h.keep rfl rfl rfl rfl (fun _ => rfl) ?_
  have hfits := h.stage
  show s.stage.Fits true its
  cases hstage : s.stage with
  | between => exact Or.inl rfl
  | opening => rwa [hstage] at hfits
  | streaming => rwa [hstage] at hfits
  | done => exact trivial

/-- Inside the body there is a newest iteration, which has not failed. -/
theorem Recorded.newest {s : Service} {its : List Iteration} (h : Recorded cfg s its)
    (hstage : s.stage = .opening ∨ s.stage = .streaming) :
    ∃ it older, its = it :: older ∧ it.slept = none := by
  have hfits := h.stage
  rcases hstage with hstage | hstage
  · rw [hstage] at hfits
    obtain ⟨older, rfl⟩ := hfits
    exact ⟨_, older, rfl, rfl⟩
  · rw [hstage] at hfits
    obtain ⟨served, older, rfl⟩ := hfits
    exact ⟨_, older, rfl, rfl⟩

/-- Inside the body its connection is open, except while it is being opened. -/
theorem Recorded.newest_opened {s : Service} {it : Iteration} {older : List Iteration}
    (h : Recorded cfg s (it :: older)) (hstage : s.stage = .opening ∨ s.stage = .streaming) :
    it.opened = false ↔ s.control = .connecting := by
  have hfits := h.stage
  rcases hstage with hopening | hstreaming
  · rw [hopening] at hfits
    obtain ⟨older₁, heq⟩ := hfits
    rw [(List.cons.inj heq).1]
    exact iff_of_true rfl (control_of_opening hopening)
  · rw [hstreaming] at hfits
    obtain ⟨served, older₁, heq⟩ := hfits
    rw [(List.cons.inj heq).1]
    refine iff_of_false (by simp) fun hc => ?_
    rw [stage_connecting hc] at hstreaming
    cases hstreaming

/-- An iteration that has not opened its connection has completed no poll cycle. -/
theorem Recorded.unserved {s : Service} {its : List Iteration} (h : Recorded cfg s its)
    {it : Iteration} (hmem : it ∈ its) (hopened : it.opened = false) : it.served = false := by
  by_contra hserved
  rw [h.served it hmem (by simpa using hserved)] at hopened
  cases hopened

theorem Recorded.enter {s : Service} {its : List Iteration} (h : Recorded cfg s its)
    (hcontrol : s.control = .outerHead) (hrunning : s.shutdown = false) :
    Recorded cfg s.openStream (observe s s.openStream its) := by
  have hnew : observe s s.openStream its = ⟨false, false, none⟩ :: its :=
    if_pos (show s.openings < s.openings + 1 by omega)
  have hnewest : ∀ it ∈ its.head?, it.slept ≠ none := by
    have hfits := h.stage
    rw [stage_outerHead hcontrol] at hfits
    exact hfits.resolve_left (by simp [hrunning])
  have hattempt := h.attempt
  rw [hnew]
  refine ⟨congrArg (· + 1) h.openings, ?_, ?_, ?_, ?_, ?_, ?_, nofun, ⟨its, rfl⟩⟩
  · show s.attempt + 1 = _
    rw [hattempt]
    rfl
  · show (if 1 < s.attempt + 1 then s.reconnects + 1 else s.reconnects) = _
    rw [countedReconnects, ← h.reconnects, ← hattempt]
    split
    · rw [if_neg (by omega)]
    · rw [if_pos (by omega)]
      rfl
  · exact h.delays.trans (List.append_nil _).symm
  · intro it older hsuffix d hd
    rcases List.suffix_cons_iff.mp hsuffix with heq | hsuffix
    · obtain ⟨rfl, -⟩ := List.cons.inj heq
      cases hd
    · exact h.slept it older hsuffix d hd
  · intro it hmem
    rcases List.mem_cons.mp hmem with rfl | hmem
    · exact fun hserved => hserved
    · exact h.served it hmem
  · intro it hmem
    cases its with
    | nil => cases hmem
    | cons first older =>
        rcases List.mem_cons.mp hmem with rfl | hmem
        · exact hnewest it rfl
        · exact h.older it hmem

theorem Recorded.opens {s : Service} {its : List Iteration} (h : Recorded cfg s its)
    (hcontrol : s.control = .connecting) :
    Recorded cfg ({ s with attempt := 0 }.goto .innerHead)
      (observe s ({ s with attempt := 0 }.goto .innerHead) its) := by
  have hfits := h.stage
  rw [stage_connecting hcontrol] at hfits
  obtain ⟨older, rfl⟩ := hfits
  have hseen : (Iteration.mk false false none).observe s ({ s with attempt := 0 }.goto .innerHead) =
      ⟨true, false, none⟩ := by
    simp [Iteration.observe, hcontrol, goto, CompletesCycle, newDelay]
  have hopenings : ({ s with attempt := 0 }.goto .innerHead).openings = s.openings := rfl
  rw [observe_cons hopenings, hseen]
  exact h.update rfl rfl rfl h.delays nofun (fun _ => rfl) nofun ⟨false, older, rfl⟩

theorem Recorded.raises {s s₁ : Service} {its : List Iteration} (h : Recorded cfg s its)
    (hsame : SameCounters s s₁) (hstage : s.stage = .opening ∨ s.stage = .streaming) :
    Recorded cfg (s₁.afterError cfg) (observe s (s₁.afterError cfg) its) := by
  obtain ⟨it, older, rfl, hawake⟩ := h.newest hstage
  have hopenings : (s₁.afterError cfg).openings = s.openings := by
    rw [openings_afterError, hsame.openings]
  have hreconnects : (s₁.afterError cfg).reconnects = s.reconnects := by
    rw [reconnects_afterError, hsame.reconnects]
  have hattempt : s₁.attempt = connectFailures (it :: older) := hsame.attempt.trans h.attempt
  have hdelay := @newDelay_afterError cfg _ _ hsame
  rw [observe_cons hopenings, observe_afterError s s₁ hawake, hdelay]
  refine h.update hopenings hreconnects ?_ ?_ ?_ (h.served it List.mem_cons_self) ?_ ?_
  · exact (attempt_afterError s₁).trans hattempt
  · have hbefore : s.delays = sleptDelays older := by
      rw [h.delays, sleptDelays, hawake]
      exact List.append_nil _
    rw [delays_afterError, hsame.delays, hbefore]
    rfl
  · intro d hd
    have hbackoff : s₁.backoff cfg = delayAfter cfg (connectFailures (it :: older)) := by
      rw [backoff, delayAfter, hattempt]
    have hd' : (if s₁.backoff cfg < 0 then none else some (s₁.backoff cfg)) = some d := hd
    split at hd'
    · cases hd'
    · exact (Option.some.inj hd').symm.trans hbackoff
  · exact fun hflush => absurd hflush (control_of_not_streaming (stage_afterError_ne s₁)).2
  · rw [stage_afterError]
    split
    · exact trivial
    · exact Or.inr (by simp)

theorem Recorded.passes {s s' : Service} {its : List Iteration} (h : Recorded cfg s its)
    (hsame : SameCounters s s') (hpasses : Passes s s') : Recorded cfg s' (observe s s' its) := by
  have hattempt := hsame.attempt.trans h.attempt
  have hfits := h.stage
  cases hpasses with
  | on hstage hstage' hflush =>
      rw [hstage] at hfits
      obtain ⟨served, older, rfl⟩ := hfits
      have hseen : (Iteration.mk true served none).observe s s' =
          ⟨true, served || decide (CompletesCycle s s'), none⟩ := by
        simp [Iteration.observe, newDelay_of_eq hsame.delays]
      rw [observe_cons hsame.openings, hseen]
      refine h.update hsame.openings hsame.reconnects hattempt (hsame.delays.trans h.delays) nofun
        (fun _ => rfl) ?_ ?_
      · exact fun hcontrol => hsame.shutdown.trans (hflush hcontrol)
      · rw [hstage']
        exact ⟨_, older, rfl⟩
  | leave hcontrol hcontrol' =>
      have hopens : ¬ (s.control = .connecting ∧ s'.control = .innerHead) := by
        simp [hcontrol]
      have hcycle : ¬ CompletesCycle s s' := by simp [CompletesCycle, hcontrol]
      rw [observe_eq hsame.openings hopens hcycle hsame.delays]
      refine h.keep hsame.openings hsame.attempt hsame.reconnects hsame.delays (by simp [hcontrol']) ?_
      rw [stage_outerHead hcontrol']
      exact Or.inl (hsame.shutdown.trans (h.innerFlush hcontrol))
  | finish hstage hstage' =>
      obtain ⟨hinner, hflush⟩ := control_of_not_streaming (s := s') (by simp [hstage'])
      have hcycle : ¬ CompletesCycle s s' := fun hc => hinner hc.2
      rw [observe_eq hsame.openings (fun hc => hinner hc.2) hcycle hsame.delays]
      refine h.keep hsame.openings hsame.attempt hsame.reconnects hsame.delays
        (fun hc => absurd hc hflush) ?_
      rw [hstage']
      exact trivial

/-- **One step keeps the record.** -/
theorem Recorded.step {s : Service} {its : List Iteration} (h : Recorded cfg s its) (i : Input) :
    Recorded cfg (s.step P cfg i) (observe s (s.step P cfg i) its) := by
  cases i with
  | signal => exact h.signal
  | proceed env =>
      have hturn := @step_turn P cfg s env
      generalize s.step P cfg (.proceed env) = s' at hturn ⊢
      cases hturn with
      | enter hcontrol hrunning => exact h.enter hcontrol hrunning
      | opens hcontrol hconnects => exact h.opens hcontrol
      | raises hraises hsame hstage => exact h.raises hsame hstage
      | passes hraises hsame hpasses => exact h.passes hsame hpasses

/-- **A whole run keeps the record.** -/
theorem recorded_run (now : ℚ) (inputs : List Input) :
    Recorded cfg (run P cfg (.start now) inputs) (iterations P cfg (.start now) inputs) := by
  have hmonitor : Recorded cfg (Replay.run (monitor P cfg) inputs (.start now, [])).1
      (Replay.run (monitor P cfg) inputs (.start now, [])).2 :=
    Replay.run_invariant (monitor P cfg) (P := fun m => Recorded cfg m.1 m.2) (recorded_start now)
      fun i _ m hm => hm.step i
  rwa [monitor_fst] at hmonitor

end Service

end PgSnowflakeCdc
