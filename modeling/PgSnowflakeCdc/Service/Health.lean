import PgSnowflakeCdc.JsonText
import PgSnowflakeCdc.Service.Iterations

/-!
# The health server (`health.py`)

`run` keeps the shared state up to date: `set_ready` when an iteration begins, when its connection is open
and when it fails, `record_event` behind each event.  The server answers probes from that state at any
time.

* `StepEffect`, `effect` — the point of `run` that touches the shared state in a step;
* `Health`, `respond` — the state and `do_GET`;
* `Probed`, `run` — service and health state together;
* `Truthful`, `truthful_run` — what the shared state says of the service at every moment;
* `readyz_iff_streaming` — **`/readyz` answers 200 exactly while the stream is running**, up to shutdown;
  `readyz_body` — what its answer says otherwise.
-/

namespace PgSnowflakeCdc

/-- What a step does to the shared state. -/
inductive StepEffect where
  | none : StepEffect
  /-- `set_ready(False)`. -/
  | entered : StepEffect
  /-- `set_ready(True)`. -/
  | opened : StepEffect
  /-- `set_ready(False, error=str(exc))`. -/
  | raised : StepEffect
  /-- `record_event()`. -/
  | published : StepEffect
deriving DecidableEq

namespace Service

/-- What a step of `run` does to the shared state. -/
def effect (P : Platform) (cfg : ServiceConfig) (s : Service) : Input → StepEffect
  | .signal => .none
  | .proceed env =>
    match s.control with
    | .outerHead => if s.shutdown then .none else .entered
    | .connecting => if env.connects then .opened else .raised
    | .polling => if env.poll.isSome then .none else .raised
    | .iterating (c :: _) =>
      if s.shutdown then .none
      else
        match (s.parser.parse P c.2 c.1).2 with
        | .error _ => .raised
        | .ok none => .none
        | .ok (some event) =>
          if ¬ IsMapped event.table then .none
          else
            match (s.sink.publish cfg.sink env.call event).result with
            | .error _ => .raised
            | .ok _ => .published
    | .idleFlush | .innerFlush =>
      match (s.sink.flush cfg.sink env.call).result with
      | .error _ => .raised
      | .ok _ => .none
    | _ => .none

variable {P : Platform} {cfg : ServiceConfig}

/-- The error branch is the one that runs when the `try` body raises. -/
theorem effect_raised_iff (s : Service) (i : Input) :
    s.effect P cfg i = .raised ↔ Raises P cfg s i := by
  cases i with
  | signal => simp [effect, Raises]
  | proceed env =>
      have hflush : (match (s.sink.flush cfg.sink env.call).result with
          | .error _ => StepEffect.raised
          | .ok _ => .none) = .raised ↔ ∃ e, (s.sink.flush cfg.sink env.call).result = .error e := by
        cases (s.sink.flush cfg.sink env.call).result with
        | error e => exact ⟨fun _ => ⟨e, rfl⟩, fun _ => rfl⟩
        | ok lsn => simp
      rw [effect, Raises]
      cases hcontrol : s.control with
      | outerHead => by_cases hs : s.shutdown <;> simp [hs]
      | connecting => cases env.connects <;> simp
      | innerHead => simp
      | polling => cases env.poll <;> simp
      | iterating changes =>
          cases changes with
          | nil => simp
          | cons c rest =>
              dsimp only
              by_cases hs : s.shutdown = true
              · simp [hs]
              · rw [if_neg hs]
                cases hparse : (s.parser.parse P c.2 c.1).2 with
                | error e => simp [hs]
                | ok event =>
                    cases event with
                    | none => simp
                    | some event =>
                        by_cases hmapped : IsMapped event.table
                        · cases hresult : (s.sink.publish cfg.sink env.call event).result with
                          | error e =>
                              simp only [hs, hmapped, hresult, not_true_eq_false, if_false, true_iff]
                              exact ⟨by simp, Or.inr ⟨event, rfl, hmapped, e, hresult⟩⟩
                          | ok lsn => simp [hmapped, hresult]
                        · simp [hmapped]
      | idleFlush => exact hflush
      | innerFlush => exact hflush
      | finalFlush => simp
      | stopped => simp
      | crashed => simp

/-- Where the loop enters its body and opens its connection; elsewhere nothing happens, an exception is
raised or an event is published. -/
theorem effect_cases (s : Service) (env : StepEnv) :
    (s.control = .outerHead ∧
        s.effect P cfg (.proceed env) = if s.shutdown then .none else .entered) ∨
      (s.control = .connecting ∧
        s.effect P cfg (.proceed env) = if env.connects then .opened else .raised) ∨
      (s.control ≠ .outerHead ∧ s.control ≠ .connecting ∧
        s.effect P cfg (.proceed env) ≠ .entered ∧ s.effect P cfg (.proceed env) ≠ .opened) := by
  have hflush : ∀ r : Except WriteError (Option ℕ),
      (match r with | .error _ => StepEffect.raised | .ok _ => .none) ≠ .entered ∧
        (match r with | .error _ => StepEffect.raised | .ok _ => .none) ≠ .opened := by
    intro r
    cases r <;> simp
  rw [effect]
  cases hcontrol : s.control with
  | outerHead => exact Or.inl ⟨rfl, rfl⟩
  | connecting => exact Or.inr (Or.inl ⟨rfl, rfl⟩)
  | innerHead => simp
  | polling => cases env.poll <;> simp
  | iterating changes =>
      refine Or.inr (Or.inr ⟨by simp, by simp, ?_⟩)
      cases changes with
      | nil => simp
      | cons c rest =>
          dsimp only
          by_cases hs : s.shutdown = true
          · simp [hs]
          · rw [if_neg hs]
            cases (s.parser.parse P c.2 c.1).2 with
            | error e => simp
            | ok event =>
                cases event with
                | none => simp
                | some event =>
                    by_cases hmapped : IsMapped event.table
                    · cases hresult : (s.sink.publish cfg.sink env.call event).result with
                      | error e => simp [hmapped, hresult]
                      | ok lsn => simp [hmapped, hresult]
                    · simp [hmapped]
  | idleFlush => exact Or.inr (Or.inr ⟨by simp, by simp, hflush _⟩)
  | innerFlush => exact Or.inr (Or.inr ⟨by simp, by simp, hflush _⟩)
  | finalFlush => simp
  | stopped => simp
  | crashed => simp

theorem effect_of_enter {s : Service} (env : StepEnv) (hcontrol : s.control = .outerHead)
    (hrunning : s.shutdown = false) : s.effect P cfg (.proceed env) = .entered := by
  rcases @effect_cases P cfg s env with ⟨-, h⟩ | ⟨hc, -⟩ | ⟨hc, -⟩
  · rw [h, if_neg (by simp [hrunning])]
  · rw [hcontrol] at hc
    cases hc
  · exact absurd hcontrol hc

theorem effect_of_open {s : Service} {env : StepEnv} (hcontrol : s.control = .connecting)
    (hconnects : env.connects = true) : s.effect P cfg (.proceed env) = .opened := by
  rcases @effect_cases P cfg s env with ⟨hc, -⟩ | ⟨-, h⟩ | ⟨-, hc, -⟩
  · rw [hcontrol] at hc
    cases hc
  · rw [h, if_pos hconnects]
  · exact absurd hcontrol hc

/-- A step that passes touches the shared state at most by recording an event. -/
theorem effect_of_passes {s : Service} {env : StepEnv}
    (hraises : ¬ Raises P cfg s (.proceed env)) (hpasses : Passes s (s.step P cfg (.proceed env))) :
    s.effect P cfg (.proceed env) = .none ∨ s.effect P cfg (.proceed env) = .published := by
  have hraised : s.effect P cfg (.proceed env) ≠ .raised := fun h =>
    hraises ((effect_raised_iff s _).mp h)
  rcases @effect_cases P cfg s env with ⟨hc, h⟩ | ⟨hc, h⟩ | ⟨-, -, hne, hne'⟩
  · by_cases hs : s.shutdown = true
    · rw [h, if_pos hs]
      exact Or.inl rfl
    · -- the body would be entered, and the next stage is the opening
      have hstep : s.step P cfg (.proceed env) = s.openStream := by
        rw [step, hc]
        dsimp only
        rw [if_neg hs]
      rw [hstep] at hpasses
      have hstage : s.stage = .between := stage_outerHead hc
      cases hpasses with
      | on h₁ h₂ h₃ =>
          rw [hstage] at h₁
          cases h₁
      | leave h₁ h₂ =>
          rw [hc] at h₁
          cases h₁
      | finish h₁ h₂ => cases h₂
  · have hstage : s.stage = .opening := stage_connecting hc
    cases hpasses with
    | on h₁ h₂ h₃ =>
        rw [hstage] at h₁
        cases h₁
    | leave h₁ h₂ =>
        rw [hc] at h₁
        cases h₁
    | finish h₁ h₂ =>
        rw [hstage] at h₁
        rcases h₁ with h₁ | h₁ <;> cases h₁
  · cases heffect : s.effect P cfg (.proceed env) with
    | none => exact Or.inl rfl
    | entered => exact absurd heffect hne
    | opened => exact absurd heffect hne'
    | raised => exact absurd heffect hraised
    | published => exact Or.inr rfl

end Service

/-! ### The shared state -/

/-- `_state`. -/
structure Health where
  ready : Bool
  lastEventTs : ℚ
  error : Option String

namespace Health

/-- `_state` when the process starts. -/
def initial : Health := ⟨false, 0, none⟩

def setReady (h : Health) (ready : Bool) (error : Option String) : Health :=
  { h with ready := ready, error := error }

def recordEvent (h : Health) (now : ℚ) : Health := { h with lastEventTs := now }

/-- The shared state behind a step: `now` is `time.monotonic()` and `exc` is `str(exc)`, where the step
reads them. -/
def after (h : Health) (now : ℚ) (exc : String) : StepEffect → Health
  | .none => h
  | .entered => h.setReady false none
  | .opened => h.setReady true none
  | .raised => h.setReady false (some exc)
  | .published => h.recordEvent now

/-- `do_GET`: status code and body.  `age` is the text of the rounded age. -/
def respond (h : Health) (age : ℚ → String) (now : ℚ) (path : String) : ℕ × Json :=
  if path = "/healthz" then (200, .obj [("status", .str "ok")])
  else if path = "/readyz" then
    if h.ready then
      (200, .obj [("status", .str "ready"), ("last_event_age_s", .float (age (now - h.lastEventTs)))])
    else (503, .obj [("status", .str "not_ready"), ("error", (h.error.map Json.str).getD .null)])
  else (404, .obj [("status", .str "not_found")])

/-- `json.dumps(body)`. -/
def payload (h : Health) (age : ℚ → String) (now : ℚ) (path : String) : String :=
  Json.dumps (h.respond age now path).2

end Health

/-! ### Service and shared state -/

/-- The service with the shared state, and the texts of the exceptions caught so far, newest first. -/
structure Probed where
  service : Service
  health : Health
  caught : List String

/-- An input of the service, with the clock and the exception text it meets. -/
structure ProbedInput where
  input : Input
  now : ℚ
  exc : String

namespace Probed

variable (P : Platform) (cfg : ServiceConfig)

def start (now : ℚ) : Probed := ⟨.start now, .initial, []⟩

def step (s : Probed) (i : ProbedInput) : Probed where
  service := s.service.step P cfg i.input
  health := s.health.after i.now i.exc (s.service.effect P cfg i.input)
  caught :=
    if s.service.effect P cfg i.input = .raised then i.exc :: s.caught else s.caught

def run (s : Probed) (inputs : List ProbedInput) : Probed :=
  Replay.run (fun i s => s.step P cfg i) inputs s

/-- What the shared state says of the service. -/
structure Truthful (s : Probed) : Prop where
  streaming : s.service.stage = .streaming → s.health.ready = true
  ready : s.health.ready = true → s.health.error = none ∧
    (s.service.stage = .streaming ∨ s.service.shutdown = true)
  opening : s.service.stage = .opening → s.health.ready = false ∧ s.health.error = none
  failed : s.health.ready = false → s.service.stage ≠ .opening → s.health.error = s.caught.head?
  leaving : s.service.control = .innerFlush → s.service.shutdown = true

variable {P cfg}

theorem truthful_start (now : ℚ) : Truthful (start now) where
  streaming := by simp [start, Service.start, Service.stage]
  ready := by simp [start, Health.initial]
  opening := by simp [start, Service.start, Service.stage]
  failed := fun _ _ => rfl
  leaving := by simp [start, Service.start]

/-- The error branch leaves the connection block, and not for the opening. -/
theorem stage_of_raised (s : Service) :
    (s.afterError cfg).stage ≠ .streaming ∧ (s.afterError cfg).stage ≠ .opening ∧
      (s.afterError cfg).control ≠ .innerFlush := by
  have hne := @Service.stage_afterError_ne cfg s
  refine ⟨hne, ?_, (Service.control_of_not_streaming hne).2⟩
  rw [Service.stage_afterError]
  split
  · simp
  · simp

/-- A step that passes keeps what the shared state says true. -/
theorem Truthful.passes {s : Probed} (h : Truthful s) {s' : Service} {health : Health}
    (hready : health.ready = s.health.ready) (herror : health.error = s.health.error)
    (hshutdown : s'.shutdown = s.service.shutdown) (hpasses : Service.Passes s.service s') :
    Truthful ⟨s', health, s.caught⟩ := by
  cases hpasses with
  | on hstage hstage' hflush =>
      have htrue := hready.trans (h.streaming hstage)
      refine ⟨fun _ => htrue, fun hr => ?_, fun ho => ?_, fun hr => ?_,
        fun hc => hshutdown.trans (hflush hc)⟩
      · exact ⟨herror.trans (h.ready (hready ▸ hr)).1, Or.inl hstage'⟩
      · exact absurd (hstage'.symm.trans ho) (by simp)
      · exact absurd (htrue.symm.trans hr) (by simp)
  | leave hcontrol hcontrol' =>
      have hstage' : s'.stage = .between := Service.stage_outerHead hcontrol'
      have hstage : s.service.stage = .streaming := by simp [Service.stage, hcontrol]
      have htrue := hready.trans (h.streaming hstage)
      refine ⟨fun hst => ?_, fun hr => ?_, fun ho => ?_, fun hr => ?_, fun hc => ?_⟩
      · exact absurd (hstage'.symm.trans hst) (by simp)
      · exact ⟨herror.trans (h.ready (hready ▸ hr)).1, Or.inr (hshutdown.trans (h.leaving hcontrol))⟩
      · exact absurd (hstage'.symm.trans ho) (by simp)
      · exact absurd (htrue.symm.trans hr) (by simp)
      · exact absurd (hcontrol'.symm.trans hc) (by simp)
  | finish hstage hstage' =>
      have hopening : s.service.stage ≠ .opening := by
        intro ho
        rcases hstage with hb | hd
        · exact absurd (hb.symm.trans ho) (by simp)
        · exact absurd (hd.symm.trans ho) (by simp)
      refine ⟨fun hst => ?_, fun hr => ?_, fun ho => ?_, fun hr _ => ?_, fun hc => ?_⟩
      · exact absurd (hstage'.symm.trans hst) (by simp)
      · obtain ⟨hnone, hwhere⟩ := h.ready (hready ▸ hr)
        refine ⟨herror.trans hnone, Or.inr (hshutdown.trans (hwhere.resolve_left fun hst => ?_))⟩
        rcases hstage with hb | hd
        · exact absurd (hb.symm.trans hst) (by simp)
        · exact absurd (hd.symm.trans hst) (by simp)
      · exact absurd (hstage'.symm.trans ho) (by simp)
      · exact herror.trans (h.failed (hready ▸ hr) hopening)
      · have hne : s'.stage ≠ .streaming := by simp [hstage']
        exact absurd hc (Service.control_of_not_streaming hne).2

/-- **Every step of `run` keeps the shared state true.** -/
theorem truthful_step {s : Probed} (h : Truthful s) (i : ProbedInput) :
    Truthful (s.step P cfg i) := by
  obtain ⟨input, now, exc⟩ := i
  cases input with
  | signal =>
      exact ⟨h.streaming, fun hr => ⟨(h.ready hr).1, Or.inr rfl⟩, h.opening, h.failed, fun _ => rfl⟩
  | proceed env =>
      rw [Probed.step]
      dsimp only
      have hturn := @Service.step_turn P cfg s.service env
      have heffect := @Service.effect_of_passes P cfg s.service env
      generalize s.service.step P cfg (.proceed env) = s' at hturn heffect ⊢
      cases hturn with
      | enter hcontrol hrunning =>
          rw [Service.effect_of_enter env hcontrol hrunning]
          constructor <;> simp [Service.openStream, Service.stage, Health.after, Health.setReady]
      | opens hcontrol hconnects =>
          rw [Service.effect_of_open hcontrol hconnects]
          constructor <;> simp [Service.goto, Service.stage, Health.after, Health.setReady]
      | raises hraises hsame hstage =>
          obtain ⟨hne, hne', hcontrol⟩ := @stage_of_raised cfg _
          rw [(Service.effect_raised_iff s.service _).mpr hraises]
          exact ⟨fun hst => absurd hst hne, by simp [Health.after, Health.setReady],
            fun ho => absurd ho hne', by simp [Health.after, Health.setReady],
            fun hc => absurd hc hcontrol⟩
      | passes hraises hsame hpasses =>
          rcases heffect hraises hpasses with he | he
          · rw [he]
            exact h.passes rfl rfl hsame.shutdown hpasses
          · rw [he]
            exact h.passes rfl rfl hsame.shutdown hpasses

/-- **The shared state is true at every moment of every run.** -/
theorem truthful_run (now : ℚ) (inputs : List ProbedInput) :
    Truthful ((start now).run P cfg inputs) :=
  Replay.run_invariant _ (truthful_start now) fun i _ _ hs => truthful_step hs i

/-- What an answer of `/readyz` may tell. -/
theorem readyz_code (h : Health) (age : ℚ → String) (t : ℚ) :
    (h.respond age t "/readyz").1 = if h.ready then 200 else 503 := by
  rw [Health.respond, if_neg (by decide), if_pos rfl]
  split
  · rfl
  · rfl

theorem loads_payload_notReady {h : Health} (hready : h.ready = false) (age : ℚ → String) (t : ℚ) :
    Json.loads (h.payload age t "/readyz") =
      some (.obj [("status", .str "not_ready"), ("error", (h.error.map Json.str).getD .null)]) := by
  rw [Health.payload, Health.respond, if_neg (by decide), if_pos rfl, if_neg (by simp [hready])]
  apply Json.loads_dumps
  rw [Json.written_obj]
  cases h.error <;> simp

/-- **The readiness probe.**  At every moment of every run `/readyz` answers 200 while the stream is
running, and before shutdown only then; otherwise it answers 503, with the text of the newest exception
caught, or `null` while the connection is being opened and before any exception. -/
theorem readyz_answers (P : Platform) (cfg : ServiceConfig) (now : ℚ) (inputs : List ProbedInput)
    (age : ℚ → String) (t : ℚ) :
    let s := (start now).run P cfg inputs
    (s.service.stage = .streaming → (s.health.respond age t "/readyz").1 = 200) ∧
      (s.service.shutdown = false →
        ((s.health.respond age t "/readyz").1 = 200 ↔ s.service.stage = .streaming)) ∧
      ((s.health.respond age t "/readyz").1 ≠ 200 →
        (s.health.respond age t "/readyz").1 = 503 ∧
          Json.loads (s.health.payload age t "/readyz") = some (.obj [("status", .str "not_ready"),
            ("error", ((if s.service.stage = .opening then none else s.caught.head?).map
              Json.str).getD .null)])) := by
  intro s
  have htrue : Truthful s := truthful_run now inputs
  have hcode := readyz_code s.health age t
  refine ⟨fun hstage => ?_, fun hrunning => ⟨fun h200 => ?_, fun hstage => ?_⟩, fun hne => ?_⟩
  · rw [hcode, if_pos (htrue.streaming hstage)]
  · have hready : s.health.ready = true := by
      by_contra hready
      rw [hcode, if_neg hready] at h200
      omega
    rcases (htrue.ready hready).2 with hstage | hshutdown
    · exact hstage
    · rw [hrunning] at hshutdown
      cases hshutdown
  · rw [hcode, if_pos (htrue.streaming hstage)]
  · have hready : s.health.ready = false := by
      by_contra hready
      rw [Bool.not_eq_false] at hready
      exact hne (by rw [hcode, if_pos hready])
    have herror : s.health.error =
        if s.service.stage = .opening then none else s.caught.head? := by
      split
      · next hopening => exact (htrue.opening hopening).2
      · next hopening => exact htrue.failed hready hopening
    rw [hcode, if_neg (by simp [hready]), loads_payload_notReady hready, herror]
    exact ⟨rfl, rfl⟩

end Probed

end PgSnowflakeCdc
