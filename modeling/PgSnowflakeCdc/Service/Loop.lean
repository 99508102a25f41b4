import PgSnowflakeCdc.PgOutput.Exceptions
import PgSnowflakeCdc.Sink.Buffer

/-!
# The service loop (`main.py`)

`run` as a machine: where control stands, the variables of `run`, the shared sink and the shutdown
flag.  A step either delivers a signal or lets the program proceed to its next point of control;
what the outside answers there (the connection, the poll, the write attempts) is its environment.

The state also records what has happened: the back-off delays, the openings and reconnects counted,
the write attempts, the changes polled, and the events those decode to with the parser of their
connection.

* `step`, `run` — the machine;
* `run_append` — runs in two parts;
* `step_case`, `processChange_cases`, `flushTo_cases` — **what a step can do**, once and for all;
* `step_calls` — what a step does to the sink.
-/

namespace PgSnowflakeCdc

/-- `SF_…`, `BACKOFF_BASE_S` and `BACKOFF_MAX_S`. -/
structure ServiceConfig where
  sink : Config
  backoffBase : ℤ
  backoffMax : ℤ

/-- A row of `poll_changes`: LSN and payload. -/
abbrev Change := ℕ × Bytes

/-- Where control stands in `run`. -/
inductive Control where
  /-- `while not _shutdown` of the outer loop. -/
  | outerHead : Control
  /-- `with cdc_connection() as conn`. -/
  | connecting : Control
  /-- `while not _shutdown` of the inner loop. -/
  | innerHead : Control
  /-- `changes = poll_changes(conn)`. -/
  | polling : Control
  /-- `for lsn, payload in changes`, with the changes left. -/
  | iterating (rest : List Change) : Control
  /-- The flush when a poll returned nothing. -/
  | idleFlush : Control
  /-- The flush behind the inner loop. -/
  | innerFlush : Control
  /-- The flush behind the outer loop. -/
  | finalFlush : Control
  | stopped : Control
  | crashed : Control
deriving DecidableEq

structure Service where
  control : Control
  shutdown : Bool
  attempt : ℕ
  totalEvents : ℕ
  parser : PgOutputParser
  sink : SnowflakeSink
  /-- The delays slept by the error branch. -/
  delays : List ℚ
  openings : ℕ
  /-- The calls of `count_reconnect`. -/
  reconnects : ℕ
  writes : List (List ChangeEvent × Attempt)
  polled : List Change
  /-- What the polled changes decode to with the parser of their connection, read or not: the events that
  `parse` returns for them, one after the other. -/
  decoded : List ChangeEvent

/-- The service when `run` reaches the outer loop for the first time. -/
def Service.start (now : ℚ) : Service where
  control := .outerHead
  shutdown := false
  attempt := 0
  totalEvents := 0
  parser := .new
  sink := .new now
  delays := []
  openings := 0
  reconnects := 0
  writes := []
  polled := []
  decoded := []

/-- What the outside answers at a point of control: whether the connection is opened, what the poll
returns (`none` when it raises), and how a call of the sink goes. -/
structure StepEnv where
  connects : Bool
  poll : Option (List Change)
  call : CallEnv

inductive Input where
  /-- SIGTERM or SIGINT. -/
  | signal : Input
  | proceed (env : StepEnv) : Input

namespace Service

def goto (s : Service) (control : Control) : Service := { s with control := control }

@[simp] theorem control_goto (s : Service) (control : Control) : (s.goto control).control = control :=
  rfl

def withParser (s : Service) (parser : PgOutputParser) : Service := { s with parser := parser }

/-- The sink and the attempts after a call of the sink. -/
def called (s : Service) (r : CallResult) : Service :=
  { s with sink := r.sink, writes := s.writes ++ r.writes }

/-- `min(BACKOFF_BASE * (2 ** min(attempt - 1, 6)), BACKOFF_MAX)`; `2 ** -1` is `0.5`. -/
def backoff (cfg : ServiceConfig) (s : Service) : ℚ :=
  min (cfg.backoffBase * (2 : ℚ) ^ min ((s.attempt : ℤ) - 1) 6) cfg.backoffMax

/-- `except Exception`: sleep and go back to the outer loop.  `time.sleep` of a negative number raises
outside the `try`. -/
def afterError (cfg : ServiceConfig) (s : Service) : Service :=
  if s.backoff cfg < 0 then s.goto .crashed
  else { s.goto .outerHead with delays := s.delays ++ [s.backoff cfg] }

/-- The outer loop body up to the `with` statement. -/
def openStream (s : Service) : Service :=
  { s with
    control := .connecting
    attempt := s.attempt + 1
    openings := s.openings + 1
    reconnects := if 1 < s.attempt + 1 then s.reconnects + 1 else s.reconnects
    parser := .new }

/-- A poll. -/
def pollChanges (P : Platform) (cfg : ServiceConfig) (s : Service) : Option (List Change) → Service
  | none => s.afterError cfg
  | some [] => s.goto .idleFlush
  | some changes =>
    { s with
      control := .iterating changes
      polled := s.polled ++ changes
      decoded := s.decoded ++ decodedEvents P s.parser changes }

/-- The body of the `for` loop behind the shutdown check. -/
def processChange (P : Platform) (cfg : ServiceConfig) (s : Service) (call : CallEnv) (c : Change)
    (rest : List Change) : Service :=
  let parsed := s.parser.parse P c.2 c.1
  let s := s.withParser parsed.1
  match parsed.2 with
  | .error _ => s.afterError cfg
  | .ok none => s.goto (.iterating rest)
  | .ok (some event) =>
    if ¬ IsMapped event.table then s.goto (.iterating rest)
    else
      let r := s.sink.publish cfg.sink call event
      let s := s.called r
      match r.result with
      | .error _ => s.afterError cfg
      | .ok _ => { s with totalEvents := s.totalEvents + 1 }.goto (.iterating rest)

/-- `_sink.flush()`, where control goes next, and where it goes after an exception. -/
def flushTo (cfg : ServiceConfig) (s : Service) (call : CallEnv) (next : Control)
    (failed : Service → Service) : Service :=
  let r := s.sink.flush cfg.sink call
  match r.result with
  | .error _ => failed (s.called r)
  | .ok _ => (s.called r).goto next

/-- One step. -/
def step (P : Platform) (cfg : ServiceConfig) (s : Service) : Input → Service
  | .signal => { s with shutdown := true }
  | .proceed env =>
    match s.control with
    | .outerHead => if s.shutdown then s.goto .finalFlush else s.openStream
    | .connecting =>
      if env.connects then { s with attempt := 0 }.goto .innerHead else s.afterError cfg
    | .innerHead => if s.shutdown then s.goto .innerFlush else s.goto .polling
    | .polling => s.pollChanges P cfg env.poll
    | .iterating [] => s.goto .innerHead
    | .iterating (c :: rest) =>
      if s.shutdown then s.goto .innerHead else s.processChange P cfg env.call c rest
    | .idleFlush => s.flushTo cfg env.call .innerHead (afterError cfg)
    | .innerFlush => s.flushTo cfg env.call .outerHead (afterError cfg)
    -- behind the loop nothing catches the exception
    | .finalFlush => s.flushTo cfg env.call .stopped (goto · .crashed)
    | .stopped => s
    | .crashed => s

/-- The service after some inputs. -/
def run (P : Platform) (cfg : ServiceConfig) (s : Service) (inputs : List Input) : Service :=
  Replay.run (fun i s => s.step P cfg i) inputs s

variable {P : Platform} {cfg : ServiceConfig}

@[simp] theorem run_nil (s : Service) : run P cfg s [] = s := rfl

@[simp] theorem run_cons (s : Service) (i : Input) (inputs : List Input) :
    run P cfg s (i :: inputs) = run P cfg (s.step P cfg i) inputs := rfl

theorem run_append (s : Service) (xs ys : List Input) :
    run P cfg s (xs ++ ys) = run P cfg (run P cfg s xs) ys :=
  Replay.run_append _ xs ys s

/-- What every step preserves holds after every run. -/
theorem run_invariant {I : Service → Prop} {s : Service} {inputs : List Input} (h : I s)
    (hstep : ∀ i ∈ inputs, ∀ s, I s → I (s.step P cfg i)) : I (run P cfg s inputs) :=
  Replay.run_invariant _ h hstep

/-- The changes of the current polled list that are left. -/
def pending (s : Service) : List Change :=
  match s.control with
  | .iterating rest => rest
  | _ => []

/-! ### The ways a step can go -/

variable (P cfg)

/-- `s'` comes from `s` without a poll or a call of the sink, and has no polled list open. -/
structure Quiet (s s' : Service) : Prop where
  sink : s'.sink = s.sink
  writes : s'.writes = s.writes
  polled : s'.polled = s.polled
  decoded : s'.decoded = s.decoded
  settled : s'.pending = []
  stopped : s'.control = .stopped → s.control = .stopped

theorem quiet_afterError (s : Service) : Quiet s (s.afterError cfg) := by
  rw [afterError]
  split
  · exact ⟨rfl, rfl, rfl, rfl, rfl, nofun⟩
  · exact ⟨rfl, rfl, rfl, rfl, rfl, nofun⟩

/-- **One change of a polled list**: `parse` raises; or there is no event of a mapped table; or
`publish` raises; or it returns. -/
theorem processChange_cases (s : Service) (call : CallEnv) (c : Change) (rest : List Change) :
    (∃ e, (s.parser.parse P c.2 c.1).2 = .error e ∧
        s.processChange P cfg call c rest =
          (s.withParser (s.parser.parse P c.2 c.1).1).afterError cfg) ∨
      (∃ event, (s.parser.parse P c.2 c.1).2 = .ok event ∧ (∀ e ∈ event, ¬ IsMapped e.table) ∧
        s.processChange P cfg call c rest =
          (s.withParser (s.parser.parse P c.2 c.1).1).goto (.iterating rest)) ∨
      ∃ event, (s.parser.parse P c.2 c.1).2 = .ok (some event) ∧ IsMapped event.table ∧
        ((∃ e, (s.sink.publish cfg.sink call event).result = .error e ∧
            s.processChange P cfg call c rest = ((s.withParser (s.parser.parse P c.2 c.1).1).called
              (s.sink.publish cfg.sink call event)).afterError cfg) ∨
          ∃ lsn, (s.sink.publish cfg.sink call event).result = .ok lsn ∧
            s.processChange P cfg call c rest =
              { (s.withParser (s.parser.parse P c.2 c.1).1).called
                  (s.sink.publish cfg.sink call event) with
                totalEvents := s.totalEvents + 1 }.goto (.iterating rest)) := by
  rw [processChange]
  dsimp only
  split
  · next e h => exact Or.inl ⟨e, h, rfl⟩
  · next h => exact Or.inr (Or.inl ⟨none, h, by simp, rfl⟩)
  · next event h =>
    by_cases hmapped : IsMapped event.table
    · rw [if_neg (not_not_intro hmapped)]
      refine Or.inr (Or.inr ⟨event, h, hmapped, ?_⟩)
      split
      · next e hresult => exact Or.inl ⟨e, hresult, rfl⟩
      · next lsn hresult => exact Or.inr ⟨lsn, hresult, rfl⟩
    · rw [if_pos hmapped]
      refine Or.inr (Or.inl ⟨some event, h, ?_, rfl⟩)
      simpa using hmapped

/-- A flush returns or raises. -/
theorem flushTo_cases (s : Service) (call : CallEnv) (next : Control) (failed : Service → Service) :
    (∃ e, (s.sink.flush cfg.sink call).result = .error e ∧
        s.flushTo cfg call next failed = failed (s.called (s.sink.flush cfg.sink call))) ∨
      ∃ lsn, (s.sink.flush cfg.sink call).result = .ok lsn ∧
        s.flushTo cfg call next failed = (s.called (s.sink.flush cfg.sink call)).goto next := by
  rw [flushTo]
  split
  · next e h => exact Or.inl ⟨e, h, rfl⟩
  · next lsn h => exact Or.inr ⟨lsn, h, rfl⟩

/-- The ways a step can go: without a poll or a call of the sink, by polling changes, by the shutdown
break, by processing a change, by a flush. -/
inductive StepCase (s : Service) (env : StepEnv) : Service → Prop
  | quiet {s' : Service} (hnil : s.pending = []) (h : Quiet s s') : StepCase s env s'
  | poll (c : Change) (rest : List Change) (hcontrol : s.control = .polling)
      (hpoll : env.poll = some (c :: rest)) :
      StepCase s env (s.pollChanges P cfg (some (c :: rest)))
  | shutdownBreak (c : Change) (rest : List Change) (hcontrol : s.control = .iterating (c :: rest))
      (hshutdown : s.shutdown = true) : StepCase s env (s.goto .innerHead)
  | process (c : Change) (rest : List Change) (hcontrol : s.control = .iterating (c :: rest))
      (hrunning : s.shutdown = false) : StepCase s env (s.processChange P cfg env.call c rest)
  | flush (next : Control) (failed : Service → Service) (hnil : s.pending = [])
      (hrunning : s.control ≠ .stopped) (hnext : ∀ s' : Service, (s'.goto next).pending = [])
      (hfailed : ∀ s' : Service, Quiet s' (failed s')) :
      StepCase s env (s.flushTo cfg env.call next failed)

/-- **What a step can do.** -/
theorem step_case (s : Service) (env : StepEnv) :
    StepCase P cfg s env (s.step P cfg (.proceed env)) := by
  have hnil : (∀ rest, s.control ≠ .iterating rest) → s.pending = [] := by
    intro h
    rw [pending]
    split
    · next rest hcontrol => exact absurd hcontrol (h rest)
    · rfl
  rw [step]
  cases hcontrol : s.control with
  | outerHead =>
    apply StepCase.quiet (hnil (by simp [hcontrol]))
    dsimp only
    split
    · exact ⟨rfl, rfl, rfl, rfl, rfl, nofun⟩
    · exact ⟨rfl, rfl, rfl, rfl, rfl, nofun⟩
  | connecting =>
    apply StepCase.quiet (hnil (by simp [hcontrol]))
    dsimp only
    split
    · exact ⟨rfl, rfl, rfl, rfl, rfl, nofun⟩
    · exact quiet_afterError cfg s
  | innerHead =>
    apply StepCase.quiet (hnil (by simp [hcontrol]))
    dsimp only
    split
    · exact ⟨rfl, rfl, rfl, rfl, rfl, nofun⟩
    · exact ⟨rfl, rfl, rfl, rfl, rfl, nofun⟩
  | polling =>
    have hsettled := hnil (by simp [hcontrol])
    dsimp only
    match hpoll : env.poll with
    | none => exact .quiet hsettled (quiet_afterError cfg s)
    | some [] => exact .quiet hsettled ⟨rfl, rfl, rfl, rfl, rfl, nofun⟩
    | some (c :: rest) => exact .poll c rest hcontrol hpoll
  | iterating changes =>
    cases changes with
    | nil => exact .quiet (by rw [pending, hcontrol]) ⟨rfl, rfl, rfl, rfl, rfl, nofun⟩
    | cons c rest =>
      dsimp only
      split
      · next hshutdown => exact .shutdownBreak c rest hcontrol hshutdown
      · next hrunning => exact .process c rest hcontrol (by simpa using hrunning)
  | idleFlush =>
    exact .flush _ _ (hnil (by simp [hcontrol])) (by simp [hcontrol]) (fun _ => rfl)
      (quiet_afterError cfg)
  | innerFlush =>
    exact .flush _ _ (hnil (by simp [hcontrol])) (by simp [hcontrol]) (fun _ => rfl)
      (quiet_afterError cfg)
  | finalFlush =>
    exact .flush _ _ (hnil (by simp [hcontrol])) (by simp [hcontrol]) (fun _ => rfl)
      fun _ => ⟨rfl, rfl, rfl, rfl, rfl, nofun⟩
  | stopped =>
    have hsettled := hnil (by simp [hcontrol])
    exact .quiet hsettled ⟨rfl, rfl, rfl, rfl, hsettled, id⟩
  | crashed =>
    have hsettled := hnil (by simp [hcontrol])
    exact .quiet hsettled ⟨rfl, rfl, rfl, rfl, hsettled, id⟩

/-- **What a step does to the sink**: nothing, or one call. -/
theorem step_calls (s : Service) (i : Input) :
    ((s.step P cfg i).sink = s.sink ∧ (s.step P cfg i).writes = s.writes) ∨
      ∃ (env : StepEnv) (c : SinkCall), i = .proceed env ∧ c.env = env.call ∧
        (s.step P cfg i).sink = (c.perform cfg.sink s.sink).sink ∧
        (s.step P cfg i).writes = s.writes ++ (c.perform cfg.sink s.sink).writes := by
  cases i with
  | signal => exact Or.inl ⟨rfl, rfl⟩
  | proceed env =>
    have hstep := step_case P cfg s env
    generalize s.step P cfg (.proceed env) = s' at hstep ⊢
    cases hstep with
    | quiet hnil h => exact Or.inl ⟨h.sink, h.writes⟩
    | poll c rest hcontrol hpoll => exact Or.inl ⟨rfl, rfl⟩
    | shutdownBreak c rest hcontrol hshutdown => exact Or.inl ⟨rfl, rfl⟩
    | process c rest hcontrol hrunning =>
      rcases processChange_cases P cfg s env.call c rest with
        ⟨e, -, h⟩ | ⟨event, -, -, h⟩ | ⟨event, -, -, ⟨e, -, h⟩ | ⟨lsn, -, h⟩⟩
      · rw [h, (quiet_afterError cfg _).sink, (quiet_afterError cfg _).writes]
        exact Or.inl ⟨rfl, rfl⟩
      · rw [h]
        exact Or.inl ⟨rfl, rfl⟩
      · rw [h, (quiet_afterError cfg _).sink, (quiet_afterError cfg _).writes]
        exact Or.inr ⟨env, .publish env.call event, rfl, rfl, rfl, rfl⟩
      · rw [h]
        exact Or.inr ⟨env, .publish env.call event, rfl, rfl, rfl, rfl⟩
    | flush next failed hnil hrunning hnext hfailed =>
      refine Or.inr ⟨env, .flush env.call, rfl, rfl, ?_⟩
      rcases flushTo_cases cfg s env.call next failed with ⟨e, -, h⟩ | ⟨lsn, -, h⟩
      · rw [h, (hfailed _).sink, (hfailed _).writes]
        exact ⟨rfl, rfl⟩
      · rw [h]
        exact ⟨rfl, rfl⟩

end Service

end PgSnowflakeCdc
