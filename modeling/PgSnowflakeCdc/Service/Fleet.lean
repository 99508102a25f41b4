import PgSnowflakeCdc.PgOutput.SelfContained
import PgSnowflakeCdc.Service.Iterations
import PgSnowflakeCdc.Service.Replication
import PgSnowflakeCdc.Service.Slot
import PgSnowflakeCdc.Sink.AuditTrail

/-!
# Several processes of the service

Each process runs `run` of `main.py`; its `cdc_connection` and its polls execute statements on the one slot,
and everything interleaves.  A process gets a signal, finds a statement raising, or dies at any moment.

* `Plugin` — `pgoutput`, which writes the answer of a call;
* `State`, `step`, `run` — the processes on the server;
* `Following` — every parser reads a well-formed stream;
* `Sound`, `sound_step`, `sound_run` — every process is a run of the service that has polled what the slot
  handed to it, and what the slot has moved past is accounted for;
* `processes_run` — **what every single process makes of the answers it gets**;
* `slot_of_streaming` — **whoever polls has a slot to poll**, however the openings interleave.
-/

namespace PgSnowflakeCdc

open Service

/-! ### The output plugin -/

/-- `pgoutput`, as a call on the slot runs it: the answer for some transactions is well formed and
self-contained, and denotes the row changes of one transaction after the other. -/
structure Plugin (P : Platform) (α : Type) where
  answer : List α → List (ℕ × Message)
  wellFormed : ∀ txs, WellFormedStream [] (answer txs)
  selfContained : ∀ txs, SelfContained [] (answer txs)
  changes : α → List ChangeEvent
  streamEvents_answer : ∀ txs, streamEvents P [] (answer txs) = txs.flatMap changes

/-- The rows of the answer, as `poll_changes` returns them. -/
def Plugin.rows {P : Platform} {α : Type} (plugin : Plugin P α) (txs : List α) : List Change :=
  encodeStream (plugin.answer txs)

/-- The events of mapped tables among the changes of some transactions. -/
def Plugin.events {P : Platform} {α : Type} (plugin : Plugin P α) (txs : List α) : List ChangeEvent :=
  replicated (txs.flatMap plugin.changes)

@[simp] theorem Plugin.events_nil {P : Platform} {α : Type} (plugin : Plugin P α) :
    plugin.events [] = [] := rfl

@[simp] theorem Plugin.events_append {P : Platform} {α : Type} (plugin : Plugin P α) (xs ys : List α) :
    plugin.events (xs ++ ys) = plugin.events xs ++ plugin.events ys := by
  rw [Plugin.events, List.flatMap_append, replicated_append, Plugin.events, Plugin.events]

/-- A transaction as the plugin writes it in a session of its own. -/
structure Transaction where
  messages : List (ℕ × Message)
  wellFormed : WellFormedStream [] messages
  selfContained : SelfContained [] messages

theorem selfContained_transactions (txs : List Transaction) :
    SelfContained [] (txs.flatMap Transaction.messages) := by
  induction txs with
  | nil => exact trivial
  | cons tx txs ih => exact tx.selfContained.concat ih

theorem wellFormed_transactions (txs : List Transaction) :
    WellFormedStream [] (txs.flatMap Transaction.messages) := by
  induction txs with
  | nil => exact trivial
  | cons tx txs ih => exact tx.wellFormed.concat ih (selfContained_transactions txs)

/-- A plugin that announces its relations in every transaction. -/
def Plugin.announcing (P : Platform) : Plugin P Transaction where
  answer txs := txs.flatMap Transaction.messages
  wellFormed := wellFormed_transactions
  selfContained := selfContained_transactions
  changes tx := streamEvents P [] tx.messages
  streamEvents_answer txs := by
    induction txs with
    | nil => rfl
    | cons tx txs ih =>
        rw [List.flatMap_cons, List.flatMap_cons, ← ih, streamEvents,
          referenceEvents_concat _ (selfContained_transactions txs), List.filterMap_append]
        rfl

namespace Fleet

/-! ### The processes -/

variable {ι σ ε α : Type}

/-- The server; the processes, where each of them stands in `cdc_connection` when it is there, and which of
them have died; where the slot stood first, and what it has moved past since then, with the process whose
poll returned it; all write attempts in order; and what each process has met. -/
structure State (ι σ α : Type) where
  server : σ
  process : ι → Service
  opening : ι → Phase
  dead : ι → Bool
  created : Option ℕ
  handed : List (Option ι × List α)
  writes : List (List ChangeEvent × Attempt)
  met : ι → List Input

/-- What happens next. -/
inductive Action (ι ε : Type) where
  /-- SIGTERM or SIGINT. -/
  | signal (i : ι) : Action ι ε
  /-- A process goes on: with a statement, whose outcome `env` decides, or with another step of `run`. -/
  | proceed (i : ι) (env : ε) (call : CallEnv) : Action ι ε
  /-- The process dies. -/
  | crash (i : ι) : Action ι ε
  /-- Something happens at the server. -/
  | progress (env : ε) : Action ι ε

variable [DecidableEq ι] (P : Platform) (cfg : ServiceConfig) (batchSize : ℤ)
  (server : SlotServer σ ε α) (plugin : Plugin P α)

namespace State

/-- Process `i` takes a step of `run`. -/
def advance (s : State ι σ α) (i : ι) (input : Input) : State ι σ α :=
  { s with
    process := Function.update s.process i ((s.process i).step P cfg input)
    writes := s.writes ++
      ((s.process i).step P cfg input).writes.drop (s.process i).writes.length
    met := Function.update s.met i (s.met i ++ [input]) }

/-- The server moves on; `receiver` has got what the slot moved past. -/
def serve (s : State ι σ α) (receiver : Option ι) (next : σ) : State ι σ α :=
  { s with
    server := next
    created := s.created <|> server.position next
    handed := s.handed ++ [(receiver, server.consumed s.server next)] }

def atPhase (s : State ι σ α) (i : ι) (phase : Phase) : State ι σ α :=
  { s with opening := Function.update s.opening i phase }

/-- A statement of `cdc_connection`.  Whether the connection is yielded or closed, the next one is opened
from the beginning. -/
def connecting (s : State ι σ α) (i : ι) (env : ε) (call : CallEnv) : State ι σ α :=
  let r := server.execute s.server env (s.opening i).query
  let s' := s.serve server none r.1
  match (s.opening i).answered r.2 with
  | .next phase => s'.atPhase i phase
  | .yields => (s'.atPhase i .connecting).advance P cfg i (.proceed ⟨true, none, call⟩)
  | .raises => (s'.atPhase i .connecting).advance P cfg i (.proceed ⟨false, none, call⟩)

/-- `poll_changes`: it returns the rows that it gets, or raises. -/
def polling (s : State ι σ α) (i : ι) (env : ε) (call : CallEnv) : State ι σ α :=
  let r := server.execute s.server env (.getChanges batchSize)
  match r.2 with
  | some txs =>
    (s.serve server (some i) r.1).advance P cfg i (.proceed ⟨true, some (plugin.rows txs), call⟩)
  | none => (s.serve server none r.1).advance P cfg i (.proceed ⟨true, none, call⟩)

end State

/-- One step.  A process that has died takes none. -/
def step (s : State ι σ α) : Action ι ε → State ι σ α
  | .signal i => if s.dead i then s else s.advance P cfg i .signal
  | .proceed i env call =>
    if s.dead i then s
    else
      match (s.process i).control with
      | .connecting => s.connecting P cfg server i env call
      | .polling => s.polling P cfg batchSize server plugin i env call
      | _ => s.advance P cfg i (.proceed ⟨true, none, call⟩)
  | .crash i => { s with dead := Function.update s.dead i true }
  | .progress env => s.serve server none (server.progress s.server env)

/-- The fleet after some actions. -/
def run (s : State ι σ α) (actions : List (Action ι ε)) : State ι σ α :=
  Replay.run (fun a s => step P cfg batchSize server plugin s a) actions s

/-- Processes that have not begun yet; there may be a slot already. -/
def start (now : ι → ℚ) (s : σ) : State ι σ α :=
  ⟨s, fun i => .start (now i), fun _ => .connecting, fun _ => false, server.position s, [], [], fun _ => []⟩

/-- The answers of a process's polls, in order. -/
def State.answers (s : State ι σ α) (i : ι) : List (List α) :=
  (s.handed.filter fun d => d.1 = some i).map Prod.snd

/-- What the slot has moved past without an answer that arrived. -/
def State.unanswered (s : State ι σ α) : List (List α) :=
  (s.handed.filter fun d => d.1 = none).map Prod.snd

/-! ### What a step of `run` reads -/

section Reading

variable {P : Platform} {cfg : ServiceConfig} {s : Service}

/-- The parser has read a well-formed stream, and what is pending goes on with it. -/
def Following (P : Platform) (s : Service) : Prop :=
  ∃ before ms, Tracks P before s.parser ∧ s.pending = encodeStream ms ∧ WellFormedStream before ms

theorem following_of_settled (before : List Message) (htracks : Tracks P before s.parser)
    (hnil : s.pending = []) : Following P s :=
  ⟨before, [], htracks, hnil, trivial⟩

theorem parser_afterError (s : Service) : (s.afterError cfg).parser = s.parser := by
  rw [afterError]
  split
  · rfl
  · rfl

theorem following_afterError {before : List Message} (htracks : Tracks P before s.parser) :
    Following P (s.afterError cfg) :=
  following_of_settled before (by rwa [parser_afterError]) (quiet_afterError cfg s).settled

theorem following_flushTo {before : List Message} (htracks : Tracks P before s.parser) (call : CallEnv)
    {next : Control} (hnext : ∀ s' : Service, (s'.goto next).pending = [])
    {failed : Service → Service}
    (hfailed : ∀ s' : Service, (failed s').parser = s'.parser ∧ (failed s').pending = []) :
    Following P (s.flushTo cfg call next failed) := by
  rcases flushTo_cases cfg s call next failed with ⟨e, -, h⟩ | ⟨lsn, -, h⟩
  · obtain ⟨hparser, hnil⟩ := hfailed (s.called (s.sink.flush cfg.sink call))
    rw [h]
    exact following_of_settled before (by rwa [hparser]) hnil
  · rw [h]
    exact following_of_settled before htracks (hnext _)

/-- One change of the polled list: the parser reads it as the next message. -/
theorem following_processChange {before : List Message} {m : Message} {lsn : ℕ}
    {ms : List (ℕ × Message)} (htracks : Tracks P before s.parser)
    (hwf : WellFormedStream before ((lsn, m) :: ms)) (call : CallEnv) :
    Following P (s.processChange P cfg call (lsn, m.encode) (encodeStream ms)) := by
  obtain ⟨-, htracks'⟩ := parse_encode htracks hwf.1 lsn
  rcases processChange_cases P cfg s call (lsn, m.encode) (encodeStream ms) with
    ⟨e, -, h⟩ | ⟨event, -, -, h⟩ | ⟨event, -, -, ⟨e, -, h⟩ | ⟨lsn', -, h⟩⟩
  · rw [h]
    exact following_afterError htracks'
  · rw [h]
    exact ⟨m :: before, ms, htracks', rfl, hwf.2⟩
  · rw [h]
    exact following_afterError htracks'
  · rw [h]
    exact ⟨m :: before, ms, htracks', rfl, hwf.2⟩

/-- **The parser goes on following**: what a poll adds is well formed behind anything. -/
theorem Following.step (h : Following P s) (env : StepEnv)
    (hpoll : s.control = .polling → ∀ changes ∈ env.poll, ∃ ms, changes = encodeStream ms ∧
      ∀ before, WellFormedStream before ms) :
    Following P (s.step P cfg (.proceed env)) := by
  obtain ⟨before, ms, htracks, hpending, hwf⟩ := h
  rw [Service.step]
  cases hcontrol : s.control with
  | outerHead =>
      dsimp only
      split
      · exact following_of_settled before htracks rfl
      · exact following_of_settled [] (tracks_new P) rfl
  | connecting =>
      dsimp only
      split
      · exact following_of_settled before htracks rfl
      · exact following_afterError htracks
  | innerHead =>
      dsimp only
      split
      · exact following_of_settled before htracks rfl
      · exact following_of_settled before htracks rfl
  | polling =>
      dsimp only
      cases henv : env.poll with
      | none => exact following_afterError htracks
      | some changes =>
          cases changes with
          | nil => exact following_of_settled before htracks rfl
          | cons c rest =>
              obtain ⟨ms', hms', hwf'⟩ := hpoll hcontrol (c :: rest) henv
              exact ⟨before, ms', htracks, hms', hwf' before⟩
  | iterating changes =>
      rw [pending, hcontrol] at hpending
      cases changes with
      | nil => exact following_of_settled before htracks rfl
      | cons c rest =>
          dsimp only
          split
          · exact following_of_settled before htracks rfl
          · cases ms with
            | nil => cases hpending
            | cons p ms =>
                obtain ⟨lsn, m⟩ := p
                obtain ⟨hc, hrest⟩ := List.cons.inj hpending
                rw [hc, hrest]
                exact following_processChange htracks hwf env.call
  | idleFlush =>
      exact following_flushTo htracks env.call (fun _ => rfl)
        fun s' => ⟨parser_afterError s', (quiet_afterError cfg s').settled⟩
  | innerFlush =>
      exact following_flushTo htracks env.call (fun _ => rfl)
        fun s' => ⟨parser_afterError s', (quiet_afterError cfg s').settled⟩
  | finalFlush => exact following_flushTo htracks env.call (fun _ => rfl) fun _ => ⟨rfl, rfl⟩
  | stopped => exact ⟨before, ms, htracks, hpending, hwf⟩
  | crashed => exact ⟨before, ms, htracks, hpending, hwf⟩

/-- Only a poll adds to what has been polled. -/
theorem polled_step (P : Platform) (cfg : ServiceConfig) (s : Service) (env : StepEnv)
    (hpoll : s.control = .polling → env.poll = none) :
    (s.step P cfg (.proceed env)).polled = s.polled ∧
      (s.step P cfg (.proceed env)).decoded = s.decoded := by
  have hstep := step_case P cfg s env
  generalize s.step P cfg (.proceed env) = s' at hstep ⊢
  cases hstep with
  | quiet hnil h => exact ⟨h.polled, h.decoded⟩
  | poll c rest hcontrol hchanges =>
      rw [hpoll hcontrol] at hchanges
      cases hchanges
  | shutdownBreak c rest hcontrol hshutdown => exact ⟨rfl, rfl⟩
  | process c rest hcontrol hrunning =>
      rcases processChange_cases P cfg s env.call c rest with
        ⟨e, -, h⟩ | ⟨event, -, -, h⟩ | ⟨event, -, -, ⟨e, -, h⟩ | ⟨lsn, -, h⟩⟩
      · rw [h, (quiet_afterError cfg _).polled, (quiet_afterError cfg _).decoded]
        exact ⟨rfl, rfl⟩
      · rw [h]
        exact ⟨rfl, rfl⟩
      · rw [h, (quiet_afterError cfg _).polled, (quiet_afterError cfg _).decoded]
        exact ⟨rfl, rfl⟩
      · rw [h]
        exact ⟨rfl, rfl⟩
  | flush next failed hnil hrunning hnext hfailed =>
      rcases flushTo_cases cfg s env.call next failed with ⟨e, -, h⟩ | ⟨lsn, -, h⟩
      · rw [h, (hfailed _).polled, (hfailed _).decoded]
        exact ⟨rfl, rfl⟩
      · rw [h]
        exact ⟨rfl, rfl⟩

/-- What a step has read of the answers of the slot. -/
structure Reads {α : Type} (plugin : Plugin P α) (s s' : Service) (answers : List (List α)) : Prop where
  polled : s'.polled = s.polled ++ answers.flatMap plugin.rows
  decoded : s'.decoded = s.decoded ++ answers.flatten.flatMap plugin.changes
  following : Following P s'

variable {α : Type} (plugin : Plugin P α)

theorem reads_nothing (h : Following P s) (env : StepEnv)
    (hpoll : s.control = .polling → env.poll = none) :
    Reads plugin s (s.step P cfg (.proceed env)) [] := by
  obtain ⟨hpolled, hdecoded⟩ := polled_step P cfg s env hpoll
  refine ⟨hpolled.trans (List.append_nil _).symm, hdecoded.trans (List.append_nil _).symm, ?_⟩
  refine h.step env fun hcontrol changes hchanges => ?_
  rw [hpoll hcontrol] at hchanges
  cases hchanges

/-- **A poll reads its answer**, whatever the parser has read before. -/
theorem reads_answer (h : Following P s) (hcontrol : s.control = .polling) (txs : List α)
    (call : CallEnv) :
    Reads plugin s (s.step P cfg (.proceed ⟨true, some (plugin.rows txs), call⟩)) [txs] := by
  have hself := plugin.selfContained txs
  have hwf := plugin.wellFormed txs
  have hfollowing : Following P (s.step P cfg (.proceed ⟨true, some (plugin.rows txs), call⟩)) := by
    refine h.step _ fun _ changes hchanges => ⟨plugin.answer txs, ?_, fun before => hwf.append before hself⟩
    exact (Option.some.inj hchanges).symm
  obtain ⟨before, ms, htracks, -⟩ := h
  have hevents : decodedEvents P s.parser (plugin.rows txs) = txs.flatMap plugin.changes := by
    rw [decodedEvents, Plugin.rows, feed_selfContained htracks hwf hself, List.filterMap_map,
      ← plugin.streamEvents_answer]
    rfl
  have hstep : s.step P cfg (.proceed ⟨true, some (plugin.rows txs), call⟩) =
      s.pollChanges P cfg (some (plugin.rows txs)) := by rw [Service.step, hcontrol]
  rw [hstep] at hfollowing ⊢
  rw [Service.pollChanges.eq_def] at hfollowing ⊢
  cases hrows : plugin.rows txs with
  | nil =>
      rw [hrows] at hfollowing hevents
      refine ⟨?_, ?_, hfollowing⟩
      · show s.polled = _
        rw [List.flatMap_singleton, hrows, List.append_nil]
      · show s.decoded = _
        rw [List.flatten_singleton, ← hevents]
        exact (List.append_nil _).symm
  | cons c rest =>
      rw [hrows] at hfollowing hevents
      refine ⟨?_, ?_, hfollowing⟩
      · show s.polled ++ c :: rest = _
        rw [List.flatMap_singleton, hrows]
      · show s.decoded ++ decodedEvents P s.parser (c :: rest) = _
        rw [List.flatten_singleton, hevents]

/-- Only opening the connection leads into the block. -/
theorem stage_step (env : StepEnv)
    (hstage : s.stage ≠ .streaming) (hcontrol : s.control ≠ .connecting) :
    (s.step P cfg (.proceed env)).stage ≠ .streaming := by
  have hturn := @Service.step_turn P cfg s env
  generalize s.step P cfg (.proceed env) = s' at hturn ⊢
  cases hturn with
  | enter hhead hrunning => simp [openStream, stage]
  | opens hconnecting hconnects => exact absurd hconnecting hcontrol
  | raises hraises hsame hwhere => exact stage_afterError_ne _
  | passes hraises hsame hpasses =>
      cases hpasses with
      | on h h' hflush => exact absurd h hstage
      | leave h h' => simp [stage, h']
      | finish h h' => simp [h']

end Reading

/-! ### The invariant -/

/-- Every process is a run of `run` over what it has met; its parser follows; it has polled the answers
that its polls returned, which decode to their changes; and what was handed out is what the slot has moved
past. -/
structure Sound (P : Platform) (cfg : ServiceConfig) (server : SlotServer σ ε α) (plugin : Plugin P α)
    (now : ι → ℚ) (s : State ι σ α) : Prop where
  ran : ∀ i, s.process i = Service.run P cfg (.start (now i)) (s.met i)
  following : ∀ i, Following P (s.process i)
  polled : ∀ i, (s.process i).polled = (s.answers i).flatMap plugin.rows
  decoded : ∀ i, (s.process i).decoded = (s.answers i).flatten.flatMap plugin.changes
  delivered : server.Delivered s.server s.created (s.handed.map Prod.snd).flatten

variable {P cfg batchSize server plugin} {now : ι → ℚ} {s : State ι σ α}

theorem sound_start (now : ι → ℚ) (s : σ) : Sound P cfg server plugin now (start server now s) where
  ran _ := rfl
  following _ := following_of_settled [] (tracks_new P) rfl
  polled _ := rfl
  decoded _ := rfl
  delivered := SlotServer.delivered_start s

theorem Sound.dead (h : Sound P cfg server plugin now s) (dead : ι → Bool) :
    Sound P cfg server plugin now { s with dead := dead } :=
  ⟨h.ran, h.following, h.polled, h.decoded, h.delivered⟩

theorem Sound.atPhase (h : Sound P cfg server plugin now s) (i : ι) (phase : Phase) :
    Sound P cfg server plugin now (s.atPhase i phase) :=
  ⟨h.ran, h.following, h.polled, h.decoded, h.delivered⟩

theorem process_advance (s : State ι σ α) (i : ι) (input : Input) :
    (s.advance P cfg i input).process =
      Function.update s.process i ((s.process i).step P cfg input) := rfl

theorem met_advance (s : State ι σ α) (i : ι) (input : Input) :
    (s.advance P cfg i input).met = Function.update s.met i (s.met i ++ [input]) := rfl

theorem answers_serve (s : State ι σ α) (receiver : Option ι) (next : σ) (j : ι) :
    (s.serve server receiver next).answers j =
      s.answers j ++ if receiver = some j then [server.consumed s.server next] else [] := by
  rw [State.answers, State.serve, List.filter_append, List.map_append, ← State.answers]
  by_cases hj : receiver = some j
  · simp [hj]
  · simp [hj]

theorem delivered_serve (h : Sound P cfg server plugin now s) (receiver : Option ι) {next : σ}
    (hmoves : server.Moves s.server next) :
    server.Delivered next (s.serve server receiver next).created
      ((s.serve server receiver next).handed.map Prod.snd).flatten := by
  rw [State.serve, List.map_append, List.flatten_append]
  simpa using h.delivered.moves hmoves

/-- The server moves on and no process hears of it. -/
theorem Sound.serve (h : Sound P cfg server plugin now s) {next : σ}
    (hmoves : server.Moves s.server next) : Sound P cfg server plugin now (s.serve server none next) := by
  have hanswers : ∀ j, (s.serve server none next).answers j = s.answers j := by
    intro j
    rw [answers_serve, if_neg (by simp), List.append_nil]
  refine ⟨h.ran, h.following, fun j => ?_, fun j => ?_, delivered_serve h none hmoves⟩
  · rw [hanswers]
    exact h.polled j
  · rw [hanswers]
    exact h.decoded j

/-- A process takes a step that reads some answers, which it has been given. -/
theorem Sound.advance (h : Sound P cfg server plugin now s) (s' : State ι σ α) {i : ι} {input : Input}
    {answers : List (List α)}
    (hreads : Reads plugin (s.process i) ((s.process i).step P cfg input) answers)
    (hprocess : s'.process = s.process) (hmet : s'.met = s.met)
    (hanswers : ∀ j, s'.answers j = s.answers j ++ if j = i then answers else [])
    (hdelivered : server.Delivered s'.server s'.created (s'.handed.map Prod.snd).flatten) :
    Sound P cfg server plugin now (s'.advance P cfg i input) := by
  have hself : (s'.advance P cfg i input).process i = (s.process i).step P cfg input := by
    rw [process_advance, hprocess, Function.update_self]
  have hothers : ∀ j, j ≠ i → (s'.advance P cfg i input).process j = s.process j := by
    intro j hj
    rw [process_advance, hprocess, Function.update_of_ne hj]
  refine ⟨fun j => ?_, fun j => ?_, fun j => ?_, fun j => ?_, hdelivered⟩
  · by_cases hj : j = i
    · rw [hj, hself, met_advance, hmet, Function.update_self, Service.run_append, ← h.ran i]
      rfl
    · rw [hothers j hj, met_advance, hmet, Function.update_of_ne hj]
      exact h.ran j
  · by_cases hj : j = i
    · rw [hj, hself]
      exact hreads.following
    · rw [hothers j hj]
      exact h.following j
  · show _ = (s'.answers j).flatMap plugin.rows
    by_cases hj : j = i
    · rw [hj, hself, hreads.polled, hanswers, if_pos rfl, List.flatMap_append, h.polled i]
    · rw [hothers j hj, hanswers, if_neg hj, List.append_nil, h.polled j]
  · show _ = (s'.answers j).flatten.flatMap plugin.changes
    by_cases hj : j = i
    · rw [hj, hself, hreads.decoded, hanswers, if_pos rfl, List.flatten_append, List.flatMap_append,
        h.decoded i]
    · rw [hothers j hj, hanswers, if_neg hj, List.append_nil, h.decoded j]

/-- A process takes a step that reads nothing. -/
theorem Sound.advance_nothing (h : Sound P cfg server plugin now s) {i : ι} {input : Input}
    (hreads : Reads plugin (s.process i) ((s.process i).step P cfg input) []) :
    Sound P cfg server plugin now (s.advance P cfg i input) :=
  h.advance s hreads rfl rfl (fun j => by rw [ite_self, List.append_nil]) h.delivered

/-! ### Every step -/

theorem Sound.connecting (h : Sound P cfg server plugin now s) (i : ι) (env : ε) (call : CallEnv) :
    Sound P cfg server plugin now (s.connecting P cfg server i env call) := by
  have hserved := h.serve (server.moves_execute s.server env (s.opening i).query)
  have hreads : ∀ connects, Reads plugin (s.process i)
      ((s.process i).step P cfg (.proceed ⟨connects, none, call⟩)) [] := fun connects =>
    reads_nothing plugin (h.following i) _ fun _ => rfl
  rw [State.connecting]
  split
  · exact hserved.atPhase i _
  · exact (hserved.atPhase i .connecting).advance_nothing (hreads true)
  · exact (hserved.atPhase i .connecting).advance_nothing (hreads false)

theorem Sound.polling (h : Sound P cfg server plugin now s) {i : ι}
    (hcontrol : (s.process i).control = .polling) (env : ε) (call : CallEnv) :
    Sound P cfg server plugin now (s.polling P cfg batchSize server plugin i env call) := by
  have hmoves := server.moves_execute s.server env (.getChanges batchSize)
  rw [State.polling]
  split
  · next txs hanswer =>
      refine h.advance (s.serve server (some i) _)
        (reads_answer plugin (h.following i) hcontrol txs call) rfl rfl (fun j => ?_)
        (delivered_serve h (some i) hmoves)
      rw [answers_serve, SlotServer.consumed_getChanges hanswer]
      by_cases hj : j = i
      · rw [if_pos (hj ▸ rfl), if_pos hj]
      · rw [if_neg (by simpa using Ne.symm hj), if_neg hj]
  · exact (h.serve hmoves).advance_nothing (reads_nothing plugin (h.following i) _ fun _ => rfl)

/-- **One step keeps the invariant**, whoever's it is. -/
theorem sound_step (h : Sound P cfg server plugin now s) (a : Action ι ε) :
    Sound P cfg server plugin now (step P cfg batchSize server plugin s a) := by
  cases a with
  | signal i =>
      rw [step]
      split
      · exact h
      · obtain ⟨before, ms, hfollowing⟩ := h.following i
        exact h.advance_nothing
          ⟨(List.append_nil _).symm, (List.append_nil _).symm, before, ms, hfollowing⟩
  | proceed i env call =>
      rw [step]
      split
      · exact h
      · split
        · exact h.connecting i env call
        · next hcontrol => exact h.polling hcontrol env call
        · next hpolling =>
            exact h.advance_nothing
              (reads_nothing plugin (h.following i) _ fun hcontrol => absurd hcontrol hpolling)
  | crash i => exact h.dead _
  | progress env => exact h.serve (server.moves_progress s.server env)

/-- **Every run keeps it.** -/
theorem sound_run (now : ι → ℚ) (s : σ) (actions : List (Action ι ε)) :
    Sound P cfg server plugin now (run P cfg batchSize server plugin (start server now s) actions) :=
  Replay.run_invariant _ (sound_start now s) fun a _ _ hs => sound_step hs a

/-! ### A rolling deployment -/

/-- `INSERT`s of one device each. -/
def tvInserted : Transaction where
  messages := [(100, .begin 500 (-946684800000000) 42),
    (101, .relation 7 "public" "customer_devices" 1 [⟨1, "id", 23, 0⟩, ⟨0, "label", 25, 0⟩]),
    (102, .insert 7 [.text "1", .text "tv"])]
  wellFormed := by decide +kernel
  selfContained := by decide +kernel

def radioInserted : Transaction where
  messages := [(110, .begin 510 (-946684800000000) 43),
    (111, .relation 7 "public" "customer_devices" 1 [⟨1, "id", 23, 0⟩, ⟨0, "label", 25, 0⟩]),
    (112, .insert 7 [.text "2", .text "radio"])]
  wellFormed := by decide +kernel
  selfContained := by decide +kernel

/-- Batches of one event. -/
def oneAtATime : ServiceConfig := ⟨⟨1, 10, 1⟩, 5, 120⟩

/-- Two processes start at once and both find no slot: the second one fails to create it, and comes back
while the backend of the first one is inside a call.  The second process writes its device first. -/
def rollingDeployment : List (Action Bool (SlotEnv Transaction)) :=
  let go (i : Bool) : Action Bool (SlotEnv Transaction) := .proceed i ⟨true, none, []⟩ (sampleEnv true)
  let held : Action Bool (SlotEnv Transaction) := .proceed true ⟨true, some 4711, []⟩ (sampleEnv true)
  let commit (tx : Transaction) : Action Bool (SlotEnv Transaction) := .progress ⟨true, none, [tx]⟩
  [go false, go true, go false, go true, go false, go true, go false, go true, go false, go true,
    commit tvInserted, go false, go false,
    go true, go true, held, go true, go true,
    commit radioInserted, go true, go true, go true, go true, go true,
    go false, go false, go false,
    .signal false, go false, go false, go false, go false, go false]

/-- A server on which a transaction decodes to its messages. -/
abbrev messageServer : SlotServer (SlotState Transaction) (SlotEnv Transaction) Transaction :=
  .waiting fun tx => tx.messages.length

abbrev deployed : State Bool (SlotState Transaction) Transaction :=
  run .numeric oneAtATime 500 messageServer (.announcing .numeric)
    (start messageServer (fun _ => 0) ⟨false, [], []⟩) rollingDeployment

example : (deployed.process false).control = .stopped ∧ (deployed.process true).delays = [5] := by
  decide +kernel

/-! ### What holds of every process -/

omit [DecidableEq ι] in
theorem isSome_position {next : σ} (hmoves : server.Moves s.server next)
    (h : (server.position s.server).isSome) : (server.position next).isSome := by
  obtain ⟨p, hp⟩ := Option.isSome_iff_exists.mp h
  obtain ⟨p', -, hp'⟩ := hmoves.present p hp
  rw [hp']
  rfl

/-- Whoever is inside the block of the `with` statement has a slot there. -/
def Served (server : SlotServer σ ε α) (s : State ι σ α) : Prop :=
  ∀ i, (s.process i).stage = .streaming → (server.position s.server).isSome

theorem Served.advance (h : Served server s) (s' : State ι σ α) (hprocess : s'.process = s.process)
    (hmoves : server.Moves s.server s'.server) {i : ι} {input : Input}
    (hself : ((s.process i).step P cfg input).stage = .streaming → (server.position s'.server).isSome) :
    Served server (s'.advance P cfg i input) := by
  intro j hj
  rw [process_advance, hprocess] at hj
  by_cases hji : j = i
  · rw [hji, Function.update_self] at hj
    exact hself hj
  · rw [Function.update_of_ne hji] at hj
    exact isSome_position hmoves (h j hj)

theorem served_step (h : Served server s) (a : Action ι ε) :
    Served server (step P cfg batchSize server plugin s a) := by
  cases a with
  | signal i =>
      rw [step]
      split
      · exact h
      · exact h.advance s rfl ⟨List.prefix_rfl, fun p hp => ⟨p, le_rfl, hp⟩⟩ (h i)
  | proceed i env call =>
      rw [step]
      split
      · exact h
      · split
        · next hcontrol =>
            have hmoves := server.moves_execute s.server env (s.opening i).query
            rw [State.connecting]
            split
            · exact fun j hj => isSome_position hmoves (h j hj)
            · next hyields =>
                exact h.advance ((s.serve server none _).atPhase i .connecting) rfl hmoves fun _ =>
                  SlotServer.isSome_of_yields hyields
            · refine h.advance ((s.serve server none _).atPhase i .connecting) rfl hmoves fun hstage =>
                absurd hstage ?_
              rw [Service.step, hcontrol]
              exact stage_afterError_ne _
        · next hcontrol =>
            have hmoves := server.moves_execute s.server env (.getChanges batchSize)
            have hslot : (server.position s.server).isSome := h i (by simp [stage, hcontrol])
            rw [State.polling]
            split
            · exact h.advance (s.serve server (some i) _) rfl hmoves fun _ => isSome_position hmoves hslot
            · exact h.advance (s.serve server none _) rfl hmoves fun _ => isSome_position hmoves hslot
        · next hconnecting hpolling =>
            refine h.advance s rfl ⟨List.prefix_rfl, fun p hp => ⟨p, le_rfl, hp⟩⟩ fun hstage => ?_
            by_contra hnone
            exact stage_step _ (fun hbefore => hnone (h i hbefore)) hconnecting hstage
  | crash i => exact h
  | progress env => exact fun j hj => isSome_position (server.moves_progress s.server env) (h j hj)

/-- **Whoever polls has a slot to poll.**  However the openings of the processes interleave, a process whose
connection has been yielded finds the slot there, and it stands where it was first or behind. -/
theorem slot_of_streaming (server : SlotServer σ ε α) (plugin : Plugin P α) (now : ι → ℚ) (first : σ)
    (actions : List (Action ι ε)) {i : ι}
    (hstreaming : ((run P cfg batchSize server plugin (start server now first) actions).process i).stage =
      .streaming) :
    let s := run P cfg batchSize server plugin (start server now first) actions
    ∃ c p, s.created = some c ∧ server.position s.server = some p ∧ c ≤ p := by
  intro s
  have hserved : Served server s :=
    Replay.run_invariant _ (fun _ h => by simp [start, Service.start, stage] at h)
      fun a _ _ hs => served_step hs a
  obtain ⟨p, hp⟩ := Option.isSome_iff_exists.mp (hserved i hstreaming)
  have hsound : Sound P cfg server plugin now s := sound_run now first actions
  have hdelivered := hsound.delivered
  rw [SlotServer.Delivered, hp] at hdelivered
  obtain ⟨c, hc, hcreated, -⟩ := hdelivered
  exact ⟨c, p, hcreated, hp, hc⟩

theorem slot_of_streaming_rolling :
    ∃ c p, deployed.created = some c ∧ messageServer.position deployed.server = some p ∧ c ≤ p :=
  slot_of_streaming messageServer (.announcing .numeric) (fun _ => 0) ⟨false, [], []⟩ rollingDeployment
    (i := true) (by decide +kernel)

/-- **Every process of a fleet is the service over the slot.**  Whatever the others do, a process is a run of
`run`, the rows it has polled are the answers of its polls, and the changes of mapped tables in these
transactions, whatever any earlier answer has announced, are in one place each: written, in the buffer, to
come from the parser in the polled list, or dropped. -/
theorem processes_run (server : SlotServer σ ε α) (plugin : Plugin P α)
    (hretries : 1 ≤ cfg.sink.maxRetries) (now : ι → ℚ) (first : σ) (actions : List (Action ι ε)) :
    let s := run P cfg batchSize server plugin (start server now first) actions
    ∀ i, s.process i = Service.run P cfg (.start (now i)) (s.met i) ∧
      (s.process i).polled = (s.answers i).flatMap plugin.rows ∧
      ((writtenBatches (s.process i).writes).flatten ++ (s.process i).sink.buffer ++
          replicated (decodedEvents P (s.process i).parser (s.process i).pending) ++
          lost P cfg (.start (now i)) (s.met i)).Perm (plugin.events (s.answers i).flatten) := by
  intro s i
  have h : Sound P cfg server plugin now s := sound_run now first actions
  have haccounts := start_accounts (P := P) hretries (now i) (s.met i)
  rw [← h.ran i, h.decoded i] at haccounts
  exact ⟨h.ran i, h.polled i, haccounts⟩

/-- The process that came back. -/
theorem processes_run_rolling :
    deployed.process true = Service.run .numeric oneAtATime (.start 0) (deployed.met true) ∧
      (deployed.process true).polled = (deployed.answers true).flatMap (Plugin.announcing .numeric).rows ∧
      ((writtenBatches (deployed.process true).writes).flatten ++ (deployed.process true).sink.buffer ++
          replicated (decodedEvents .numeric (deployed.process true).parser
            (deployed.process true).pending) ++
          lost .numeric oneAtATime (.start 0) (deployed.met true)).Perm
        ((Plugin.announcing .numeric).events (deployed.answers true).flatten) :=
  processes_run messageServer (.announcing .numeric) (by decide) (fun _ => 0) ⟨false, [], []⟩
    rollingDeployment true

end Fleet

end PgSnowflakeCdc
