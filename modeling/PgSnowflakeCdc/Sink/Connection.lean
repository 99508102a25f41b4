import PgSnowflakeCdc.Foundations.Replay
import PgSnowflakeCdc.Sink.Buffer

/-!
# The sink's connection (`self._conn`)

The sink keeps one connection between its flushes, opens another when it has none or a closed one, and
gives its connection up after a failed attempt, unless that was the last attempt of the flush.

* `Link.getConn`, `Link.tryWrite`, `Link.writeLoop` — the retry loop with the connection;
* `run_refines` — **without its connection the sink is the one of `Buffer`**: every run of it is a run
  over the attempts, so what holds of all those holds here;
* `connections_in_order` — **a connection that was given up is never used again**;
* `stale_connection_replaced_iff` — **a connection that has silently failed is replaced exactly when a
  flush makes two attempts.**
-/

namespace PgSnowflakeCdc

open RowNumbering

/-! ### The connection -/

/-- `self._conn`; connections are numbered in the order they were opened. -/
structure Link where
  conn : Option ℕ
  opened : ℕ
  conn_lt : ∀ c, conn = some c → c < opened

/-- What one round of the retry loop meets: the answer of `is_closed()`, whether a new connection can be
opened, and how `_write_batch` ends over a connection. -/
structure RoundEnv where
  closed : ℕ → Bool
  connects : Bool
  outcome : ℕ → Attempt

/-- A round of the retry loop: the connection it wrote over, unless there was none, and its `attempt`. -/
structure Round where
  conn : Option ℕ
  number : ℕ
  attempt : Attempt

namespace Link

/-- `SnowflakeSink.__init__`. -/
def new : Link := ⟨none, 0, nofun⟩

/-- `_fetch_creds` and `connect`; when one of them raises, `self._conn` stays as it is. -/
def connect (l : Link) (env : RoundEnv) : Link × Option ℕ :=
  if env.connects then
    (⟨some l.opened, l.opened + 1, fun _ h => Option.some.inj h ▸ Nat.lt_succ_self _⟩, some l.opened)
  else (l, none)

/-- `_get_conn`. -/
def getConn (l : Link) (env : RoundEnv) : Link × Option ℕ :=
  match l.conn with
  | none => l.connect env
  | some c => if env.closed c then l.connect env else (l, some c)

/-- `self._conn = None`. -/
def drop (l : Link) : Link := ⟨none, l.opened, nofun⟩

/-- `_write_batch` in one round; without a connection no statement is executed. -/
def tryWrite (l : Link) (env : RoundEnv) (number : ℕ) : Link × Round :=
  match l.getConn env with
  | (l, some c) => (l, ⟨some c, number, env.outcome c⟩)
  | (l, none) => (l, ⟨none, number, { env.outcome 0 with failedAfter := some 0 }⟩)

/-- The loop `for attempt in range(1, _MAX_RETRIES + 1)`, as `retryLoop`, with the connection. -/
def writeLoop (maxRetries : ℤ) (env : ℕ → RoundEnv) :
    (left attempt : ℕ) → Link → Link × List Round × Except WriteError Unit
  | 0, _, l => (l, [], .ok ())
  | left + 1, attempt, l =>
    let t := l.tryWrite (env attempt) attempt
    if t.2.attempt.succeeded then (t.1, [t.2], .ok ())
    else if (attempt : ℤ) < maxRetries then
      let rest := writeLoop maxRetries env left (attempt + 1) t.1.drop
      (rest.1, t.2 :: rest.2.1, rest.2.2)
    else (t.1, [t.2], .error .writeFailed)

end Link

/-! ### The sink with its connection -/

/-- What a call meets. -/
structure LinkedEnv where
  now : ℚ
  done : ℚ
  round : ℕ → RoundEnv

structure LinkedSink where
  sink : SnowflakeSink
  link : Link

/-- The outcome of a call, with the rounds it made. -/
structure LinkedResult where
  after : LinkedSink
  result : Except WriteError (Option ℕ)
  rounds : List (List ChangeEvent × Round)

inductive LinkedCall where
  | publish (env : LinkedEnv) (event : ChangeEvent) : LinkedCall
  | flush (env : LinkedEnv) : LinkedCall

def LinkedCall.env : LinkedCall → LinkedEnv
  | .publish env _ => env
  | .flush env => env

namespace LinkedSink

variable (cfg : Config)

/-- `_flush`. -/
def flush (s : LinkedSink) (env : LinkedEnv) : LinkedResult :=
  if s.sink.buffer.isEmpty then ⟨⟨{ s.sink with lastFlush := env.done }, s.link⟩, .ok none, []⟩
  else
    let batch := s.sink.buffer
    let loop := s.link.writeLoop cfg.maxRetries env.round cfg.maxRetries.toNat 1
    let rounds := loop.2.1.map fun r => (batch, r)
    match loop.2.2 with
    | .error e => ⟨⟨s.sink, loop.1⟩, .error e, rounds⟩
    | .ok () => ⟨⟨⟨[], env.done⟩, loop.1⟩, .ok (batch.map ChangeEvent.confirmLsn).max?, rounds⟩

/-- `publish`. -/
def publish (s : LinkedSink) (env : LinkedEnv) (event : ChangeEvent) : LinkedResult :=
  if ¬ IsMapped event.table then ⟨s, .ok none, []⟩
  else
    let s := { s with sink := { s.sink with buffer := s.sink.buffer ++ [event.normalized] } }
    let elapsed := env.now - s.sink.lastFlush
    if cfg.batchSize ≤ s.sink.buffer.length ∨ cfg.flushInterval ≤ elapsed then s.flush cfg env
    else ⟨s, .ok none, []⟩

def perform (s : LinkedSink) : LinkedCall → LinkedResult
  | .publish env event => s.publish cfg env event
  | .flush env => s.flush cfg env

end LinkedSink

/-- A sink after some calls: their results and the rounds they made, in order. -/
structure LinkedRun where
  current : LinkedSink
  results : List (Except WriteError (Option ℕ))
  rounds : List (List ChangeEvent × Round)

namespace LinkedRun

/-- One more call, whether it returns or raises. -/
def call (cfg : Config) (c : LinkedCall) (r : LinkedRun) : LinkedRun :=
  ⟨(r.current.perform cfg c).after, r.results ++ [(r.current.perform cfg c).result],
    r.rounds ++ (r.current.perform cfg c).rounds⟩

/-- Any calls on a sink with an empty buffer, whatever connection it has. -/
def run (cfg : Config) (start : ℚ) (link : Link) (calls : List LinkedCall) : LinkedRun :=
  Replay.run (call cfg) calls ⟨⟨.new start, link⟩, [], []⟩

/-- The attempts, without their connections. -/
def writes (r : LinkedRun) : List (List ChangeEvent × Attempt) :=
  r.rounds.map fun w => (w.1, w.2.attempt)

end LinkedRun

/-! ### Without the connection -/

namespace Link

variable (l : Link) (env : ℕ → RoundEnv)

/-- The connection before round `n + 1`, when the first `n` rounds have failed. -/
def afterFailures : ℕ → Link
  | 0 => l
  | n + 1 => ((afterFailures n).tryWrite (env (n + 1)) (n + 1)).1.drop

/-- How the attempts of a flush end, one after the other. -/
def outcomes (attempt : ℕ) : Attempt :=
  ((l.afterFailures env (attempt - 1)).tryWrite (env attempt) attempt).2.attempt

/-- **The loop is `retryLoop`** over its outcomes.  The induction is on the rounds left; the connection
is the one after as many failures as rounds made. -/
theorem writeLoop_erases (maxRetries : ℤ) (left n : ℕ) :
    let loop := (l.afterFailures env n).writeLoop maxRetries env left (n + 1)
    (loop.2.1.map Round.attempt, loop.2.2) = retryLoop maxRetries (l.outcomes env) left (n + 1) := by
  induction left generalizing n with
  | zero => rfl
  | succ left ih =>
      have houtcome : l.outcomes env (n + 1)
          = ((l.afterFailures env n).tryWrite (env (n + 1)) (n + 1)).2.attempt := rfl
      rw [retryLoop, houtcome]
      simp only [writeLoop]
      split
      · rfl
      · split
        · have hrest := ih (n + 1)
          rw [← hrest]
          rfl
        · rfl

end Link

/-- What the call meets as the sink of `Buffer` sees it. -/
def LinkedEnv.callEnv (env : LinkedEnv) (l : Link) : CallEnv := ⟨env.now, env.done, l.outcomes env.round⟩

def LinkedCall.erase (l : Link) : LinkedCall → SinkCall
  | .publish env event => .publish (env.callEnv l) event
  | .flush env => .flush (env.callEnv l)

def LinkedResult.erase (r : LinkedResult) : CallResult :=
  ⟨r.after.sink, r.result, r.rounds.map fun w => (w.1, w.2.attempt)⟩

namespace LinkedSink

variable (cfg : Config) (s : LinkedSink)

theorem flush_erases (env : LinkedEnv) :
    (s.flush cfg env).erase = s.sink.flush cfg (env.callEnv s.link) := by
  rw [flush, SnowflakeSink.flush]
  split
  · rfl
  · have hloop := s.link.writeLoop_erases env.round cfg.maxRetries cfg.maxRetries.toNat 0
    simp only [Link.afterFailures, Nat.zero_add] at hloop
    simp only [LinkedEnv.callEnv, ← hloop]
    generalize Link.writeLoop cfg.maxRetries env.round cfg.maxRetries.toNat 1 s.link = r
    obtain ⟨link, rounds, result⟩ := r
    cases result with
    | error e => simp only [LinkedResult.erase, List.map_map, Function.comp_def]
    | ok => simp only [LinkedResult.erase, List.map_map, Function.comp_def]

theorem publish_erases (env : LinkedEnv) (event : ChangeEvent) :
    (s.publish cfg env event).erase = s.sink.publish cfg (env.callEnv s.link) event := by
  rw [publish, SnowflakeSink.publish]
  split
  · rfl
  · let appended : LinkedSink :=
      ⟨{ s.sink with buffer := s.sink.buffer ++ [event.normalized] }, s.link⟩
    by_cases hdue : cfg.batchSize ≤ appended.sink.buffer.length ∨
        cfg.flushInterval ≤ env.now - s.sink.lastFlush
    · have hflush := appended.flush_erases cfg env
      exact (congrArg LinkedResult.erase (if_pos hdue)).trans (hflush.trans (if_pos hdue).symm)
    · exact (congrArg LinkedResult.erase (if_neg hdue)).trans (if_neg hdue).symm

/-- **A call without its connection** is the call of `Buffer`. -/
theorem perform_erases (c : LinkedCall) :
    (s.perform cfg c).erase = (c.erase s.link).perform cfg s.sink := by
  cases c with
  | publish env event => exact s.publish_erases cfg env event
  | flush env => exact s.flush_erases cfg env

end LinkedSink

/-- The calls of a run, each with the outcomes its rounds have. -/
def erasedCalls (cfg : Config) : LinkedSink → List LinkedCall → List SinkCall
  | _, [] => []
  | s, c :: calls => c.erase s.link :: erasedCalls cfg (s.perform cfg c).after calls

/-- The events that calls publish. -/
def publishedIn (calls : List LinkedCall) : List ChangeEvent :=
  calls.filterMap fun
    | .publish _ event => some event
    | .flush _ => none

theorem publishedBy_erasedCalls (cfg : Config) (s : LinkedSink) (calls : List LinkedCall) :
    publishedBy (erasedCalls cfg s calls) = publishedIn calls := by
  induction calls generalizing s with
  | nil => rfl
  | cons c calls ih =>
      cases c with
      | publish env event => exact congrArg (event :: ·) (ih (s.publish cfg env event).after)
      | flush env => exact ih (s.flush cfg env).after

/-- A run from any point on; the results of `Buffer`'s calls are those of the linked ones. -/
theorem run_erases (cfg : Config) (calls : List LinkedCall) (r : LinkedRun) :
    let after := Replay.run (LinkedRun.call cfg) calls r
    (erasedCalls cfg r.current calls).foldl (SinkRun.call cfg) ⟨r.current.sink, r.writes⟩
      = ⟨after.current.sink, after.writes⟩ := by
  induction calls generalizing r with
  | nil => rfl
  | cons c calls ih =>
      have hcall : SinkRun.call cfg ⟨r.current.sink, r.writes⟩ (c.erase r.current.link)
          = ⟨(r.call cfg c).current.sink, (r.call cfg c).writes⟩ := by
        rw [SinkRun.call, ← LinkedSink.perform_erases]
        simp only [LinkedRun.call, LinkedRun.writes, LinkedResult.erase, List.map_append]
      rw [erasedCalls, List.foldl_cons, hcall]
      exact ih (r.call cfg c)

/-- **The sink with its connection refines the sink.**  For any connection it starts with and whatever its
rounds meet, a run ends with the buffer, and has made the write attempts, of a run of `Buffer`'s calls
that publish the same events. -/
theorem LinkedRun.run_refines (cfg : Config) (start : ℚ) (link : Link) (calls : List LinkedCall) :
    let r := run cfg start link calls
    let plain := SinkRun.run cfg start (erasedCalls cfg ⟨.new start, link⟩ calls)
    plain.sink = r.current.sink ∧ plain.writes = r.writes ∧
      publishedBy (erasedCalls cfg ⟨.new start, link⟩ calls) = publishedIn calls := by
  have herase := run_erases cfg calls ⟨⟨.new start, link⟩, [], []⟩
  refine ⟨congrArg SinkRun.sink herase, congrArg SinkRun.writes herase, ?_⟩
  exact publishedBy_erasedCalls cfg _ calls

/-! ### The order of the connections -/

namespace Link

variable {l : Link}

/-- `_get_conn` keeps its connection, opens the next one, or raises and changes nothing. -/
theorem getConn_cases (l : Link) (env : RoundEnv) :
    (∃ c, l.conn = some c ∧ l.getConn env = (l, some c)) ∨
      ((l.getConn env).1.conn = some l.opened ∧ (l.getConn env).1.opened = l.opened + 1 ∧
        (l.getConn env).2 = some l.opened) ∨
      l.getConn env = (l, none) := by
  have hconnect : ((l.connect env).1.conn = some l.opened ∧ (l.connect env).1.opened = l.opened + 1 ∧
      (l.connect env).2 = some l.opened) ∨ l.connect env = (l, none) := by
    rw [connect]
    split
    · exact Or.inl ⟨rfl, rfl, rfl⟩
    · exact Or.inr rfl
  rw [getConn]
  split
  · exact Or.inr hconnect
  · next c hc =>
    split
    · exact Or.inr hconnect
    · exact Or.inl ⟨c, hc, rfl⟩

/-- **One round** writes over the connection the sink has, over the next one, or over none. -/
theorem tryWrite_cases (l : Link) (env : RoundEnv) (number : ℕ) :
    (∃ c, l.conn = some c ∧ (l.tryWrite env number).1 = l ∧ (l.tryWrite env number).2.conn = some c) ∨
      ((l.tryWrite env number).1.conn = some l.opened ∧
        (l.tryWrite env number).1.opened = l.opened + 1 ∧
        (l.tryWrite env number).2.conn = some l.opened) ∨
      ((l.tryWrite env number).1 = l ∧ (l.tryWrite env number).2.conn = none) := by
  rcases hget : l.getConn env with ⟨l', so⟩
  have hcases := l.getConn_cases env
  rw [hget] at hcases
  rw [tryWrite, hget]
  rcases hcases with ⟨c, hc, heq⟩ | ⟨hconn, hopened, hso⟩ | heq
  · cases heq
    exact Or.inl ⟨c, hc, rfl, rfl⟩
  · cases hso
    exact Or.inr (Or.inl ⟨hconn, hopened, rfl⟩)
  · cases heq
    exact Or.inr (Or.inr ⟨rfl, rfl⟩)

@[simp] theorem tryWrite_number (l : Link) (env : RoundEnv) (number : ℕ) :
    (l.tryWrite env number).2.number = number := by
  rw [tryWrite]
  split <;> rfl

end Link

/-- The attempt succeeded, or it was the last one of its flush. -/
def Round.Keeps (maxRetries : ℤ) (r : Round) : Prop :=
  r.attempt.succeeded = true ∨ maxRetries ≤ r.number

/-- A later round writes over a later connection, or over the same one if the earlier round keeps it. -/
def Round.Precedes (maxRetries : ℤ) (r r' : Round) : Prop :=
  ∀ c c', r.conn = some c → r'.conn = some c' → c < c' ∨ (c = c' ∧ r.Keeps maxRetries)

/-- What the rounds made so far say about the connection the sink has. -/
structure InOrder (maxRetries : ℤ) (rounds : List Round) (l : Link) : Prop where
  ordered : rounds.Pairwise (Round.Precedes maxRetries)
  used : ∀ r ∈ rounds, ∀ c, r.conn = some c → c < l.opened
  held : ∀ r ∈ rounds, ∀ c c', r.conn = some c → l.conn = some c' →
    c < c' ∨ (c = c' ∧ r.Keeps maxRetries)

section Order

variable {maxRetries : ℤ} {rounds : List Round} {l : Link}

theorem InOrder.drop (hordered : rounds.Pairwise (Round.Precedes maxRetries))
    (hused : ∀ r ∈ rounds, ∀ c, r.conn = some c → c < l.opened) :
    InOrder maxRetries rounds l.drop :=
  ⟨hordered, hused, fun _ _ _ _ _ h => nomatch h⟩

/-- A round comes in order after those before it, whatever becomes of its connection. -/
theorem InOrder.tryWrite (h : InOrder maxRetries rounds l) (env : RoundEnv) (number : ℕ) :
    let t := l.tryWrite env number
    (rounds ++ [t.2]).Pairwise (Round.Precedes maxRetries) ∧
      (∀ r ∈ rounds ++ [t.2], ∀ c, r.conn = some c → c < t.1.opened) ∧
      (t.2.Keeps maxRetries → InOrder maxRetries (rounds ++ [t.2]) t.1) := by
  intro t
  have hbefore : ∀ r ∈ rounds, r.Precedes maxRetries t.2 := by
    intro r hr c c' hc hc'
    rcases l.tryWrite_cases env number with ⟨d, hd, -, hround⟩ | ⟨-, -, hround⟩ | ⟨-, hround⟩
    · rw [hround, ← hd] at hc'
      exact h.held r hr c c' hc hc'
    · rw [hround] at hc'
      have hlt := h.used r hr c hc
      cases hc'
      exact Or.inl hlt
    · rw [hround] at hc'
      cases hc'
  have hordered : (rounds ++ [t.2]).Pairwise (Round.Precedes maxRetries) := by
    rw [List.pairwise_append]
    refine ⟨h.ordered, List.pairwise_singleton _ _, ?_⟩
    intro r hr r' hr'
    rw [List.mem_singleton.mp hr']
    exact hbefore r hr
  have hlast : ∀ c, t.2.conn = some c → t.1.conn = some c ∧ c < t.1.opened := by
    intro c hc
    rcases l.tryWrite_cases env number with ⟨d, hd, hlink, hround⟩ | ⟨hconn, hopened, hround⟩ |
      ⟨-, hround⟩
    · have hcd : some d = some c := hround.symm.trans hc
      have hconn : t.1.conn = some c := by rw [hlink, hd, hcd]
      exact ⟨hconn, t.1.conn_lt c hconn⟩
    · have hconn' : t.1.conn = some c := hconn.trans (hround.symm.trans hc)
      exact ⟨hconn', t.1.conn_lt c hconn'⟩
    · rw [hround] at hc
      cases hc
  have hused : ∀ r ∈ rounds ++ [t.2], ∀ c, r.conn = some c → c < t.1.opened := by
    intro r hr c hc
    rcases List.mem_append.mp hr with hr | hr
    · have hlt := h.used r hr c hc
      rcases l.tryWrite_cases env number with ⟨-, -, hlink, -⟩ | ⟨-, hopened, -⟩ | ⟨hlink, -⟩
      · rwa [hlink]
      · show c < (l.tryWrite env number).1.opened
        omega
      · rwa [hlink]
    · rw [List.mem_singleton.mp hr] at hc
      exact (hlast c hc).2
  refine ⟨hordered, hused, fun hkeeps => ⟨hordered, hused, ?_⟩⟩
  intro r hr c c' hc hc'
  rcases List.mem_append.mp hr with hr | hr
  · rcases l.tryWrite_cases env number with ⟨-, -, hlink, -⟩ | ⟨hconn, -, -⟩ | ⟨hlink, -⟩
    · exact h.held r hr c c' hc (hlink ▸ hc')
    · have hopened : some l.opened = some c' := hconn.symm.trans hc'
      cases hopened
      exact Or.inl (h.used r hr c hc)
    · exact h.held r hr c c' hc (hlink ▸ hc')
  · rw [List.mem_singleton.mp hr] at hc ⊢
    have hsame : some c = some c' := (hlast c hc).1.symm.trans hc'
    cases hsame
    exact Or.inr ⟨rfl, hkeeps⟩

/-- **The retry loop keeps the order.**  The induction is on the rounds left. -/
theorem InOrder.writeLoop (env : ℕ → RoundEnv) (left : ℕ) :
    ∀ (attempt : ℕ) {rounds : List Round} {l : Link}, InOrder maxRetries rounds l →
      InOrder maxRetries (rounds ++ (l.writeLoop maxRetries env left attempt).2.1)
        (l.writeLoop maxRetries env left attempt).1 := by
  induction left with
  | zero =>
      intro attempt rounds l h
      rwa [Link.writeLoop, List.append_nil]
  | succ left ih =>
      intro attempt rounds l h
      obtain ⟨hordered, hused, hkept⟩ := h.tryWrite (env attempt) attempt
      rw [Link.writeLoop]
      dsimp only
      split
      · next hok => exact hkept (Or.inl hok)
      · split
        · have hrest := ih (attempt + 1) (InOrder.drop hordered hused)
          rwa [List.append_assoc] at hrest
        · next hlast =>
          refine hkept (Or.inr ?_)
          rw [Link.tryWrite_number]
          omega

end Order

/-- The rounds of a run. -/
def LinkedRun.trace (r : LinkedRun) : List Round := r.rounds.map Prod.snd

theorem trace_call (cfg : Config) (c : LinkedCall) (r : LinkedRun) :
    (r.call cfg c).trace = r.trace ++ (r.current.perform cfg c).rounds.map Prod.snd :=
  List.map_append

theorem InOrder.flush {cfg : Config} {rounds : List Round} {s : LinkedSink}
    (h : InOrder cfg.maxRetries rounds s.link) (env : LinkedEnv) :
    InOrder cfg.maxRetries (rounds ++ (s.flush cfg env).rounds.map Prod.snd)
      (s.flush cfg env).after.link := by
  have hloop := InOrder.writeLoop env.round cfg.maxRetries.toNat 1 h
  have hsnd : ∀ (batch : List ChangeEvent) (rs : List Round),
      (rs.map fun r => (batch, r)).map Prod.snd = rs := by
    intro batch rs
    rw [List.map_map]
    exact List.map_id rs
  rw [LinkedSink.flush]
  split
  · rwa [List.map_nil, List.append_nil]
  · dsimp only
    split <;> rwa [hsnd]

theorem InOrder.perform {cfg : Config} {rounds : List Round} {s : LinkedSink}
    (h : InOrder cfg.maxRetries rounds s.link) (c : LinkedCall) :
    InOrder cfg.maxRetries (rounds ++ (s.perform cfg c).rounds.map Prod.snd)
      (s.perform cfg c).after.link := by
  cases c with
  | flush env => exact h.flush env
  | publish env event =>
      rw [LinkedSink.perform, LinkedSink.publish]
      split
      · rwa [List.map_nil, List.append_nil]
      · dsimp only
        split
        · let appended : SnowflakeSink := { s.sink with buffer := s.sink.buffer ++ [event.normalized] }
          exact InOrder.flush (s := ⟨appended, s.link⟩) h env
        · rwa [List.map_nil, List.append_nil]

/-- **Connections are used in the order they were opened, and one that was given up is never used again.**
In every run, of two attempts made over connections the later one is made over a later connection, or over
the same one and then the earlier attempt succeeded or was the last of its flush. -/
theorem LinkedRun.connections_in_order (cfg : Config) (start : ℚ) (link : Link)
    (calls : List LinkedCall) :
    (run cfg start link calls).trace.Pairwise fun r r' =>
      ∀ c c', r.conn = some c → r'.conn = some c' →
        c < c' ∨ (c = c' ∧ (r.attempt.succeeded = true ∨ cfg.maxRetries ≤ r.number)) := by
  have hrun : InOrder cfg.maxRetries (run cfg start link calls).trace
      (run cfg start link calls).current.link := by
    refine Replay.run_invariant (call cfg)
      (P := fun r => InOrder cfg.maxRetries r.trace r.current.link) ?_ ?_
    · exact ⟨List.Pairwise.nil, fun _ hr => absurd hr List.not_mem_nil,
        fun _ hr => absurd hr List.not_mem_nil⟩
    · intro c _ r h
      rw [trace_call]
      exact h.perform c
  exact hrun.ordered

/-! ### A connection that fails silently -/

/-- Connections can be opened, and what is written over one opened from number `n` on succeeds.  Nothing is
said of the connections before. -/
def LinkedEnv.NewWork (n : ℕ) (env : LinkedEnv) : Prop :=
  ∀ attempt, (env.round attempt).connects = true ∧
    ∀ c, n ≤ c → ((env.round attempt).outcome c).succeeded = true

namespace Link

theorem opened_le_tryWrite (l : Link) (env : RoundEnv) (number : ℕ) :
    l.opened ≤ (l.tryWrite env number).1.opened := by
  rcases l.tryWrite_cases env number with ⟨-, -, hlink, -⟩ | ⟨-, hopened, -⟩ | ⟨hlink, -⟩
  · rw [hlink]
  · omega
  · rw [hlink]

theorem opened_le_writeLoop (maxRetries : ℤ) (env : ℕ → RoundEnv) (left attempt : ℕ) (l : Link) :
    l.opened ≤ (l.writeLoop maxRetries env left attempt).1.opened := by
  induction left generalizing attempt l with
  | zero => exact le_rfl
  | succ left ih =>
      have hround := l.opened_le_tryWrite (env attempt) attempt
      rw [writeLoop]
      dsimp only
      split
      · exact hround
      · split
        · exact hround.trans (ih (attempt + 1) (l.tryWrite (env attempt) attempt).1.drop)
        · exact hround

/-- A connection that was given up is replaced in the next round. -/
theorem tryWrite_drop (l : Link) {env : RoundEnv} (h : env.connects = true) (number : ℕ) :
    (l.drop.tryWrite env number).2.attempt = env.outcome l.opened := by
  have hget : (l.drop.getConn env).2 = some l.opened := by
    show (l.drop.connect env).2 = some l.opened
    rw [connect, if_pos h]
    rfl
  rw [tryWrite]
  split
  · next c heq =>
    rw [heq] at hget
    cases hget
    rfl
  · next heq =>
    rw [heq] at hget
    cases hget

end Link

/-- **The second attempt of a flush goes over a new connection.** -/
theorem LinkedEnv.NewWork.succeeds {cfg : Config} (hretries : 2 ≤ cfg.maxRetries) {n : ℕ}
    {env : LinkedEnv} (h : env.NewWork n) {l : Link} (hn : n ≤ l.opened) :
    (env.callEnv l).Succeeds cfg := by
  refine ⟨1, by omega, ?_⟩
  show ((((l.tryWrite (env.round 1) 1).1.drop).tryWrite (env.round 2) 2).2.attempt).succeeded = true
  rw [Link.tryWrite_drop _ (h 2).1]
  exact (h 2).2 _ (hn.trans (l.opened_le_tryWrite _ _))

namespace LinkedSink

variable {cfg : Config} {s : LinkedSink}

theorem opened_le_flush (env : LinkedEnv) : s.link.opened ≤ (s.flush cfg env).after.link.opened := by
  have hloop := s.link.opened_le_writeLoop cfg.maxRetries env.round cfg.maxRetries.toNat 1
  rw [flush]
  split
  · exact le_rfl
  · dsimp only
    split <;> exact hloop

theorem opened_le_perform (c : LinkedCall) : s.link.opened ≤ (s.perform cfg c).after.link.opened := by
  cases c with
  | flush env => exact opened_le_flush env
  | publish env event =>
      rw [perform, publish]
      split
      · exact le_rfl
      · dsimp only
        split
        · let appended : SnowflakeSink := { s.sink with buffer := s.sink.buffer ++ [event.normalized] }
          exact opened_le_flush (s := ⟨appended, s.link⟩) env
        · exact le_rfl

/-- A call that meets working new connections does not raise. -/
theorem perform_returns (hretries : 2 ≤ cfg.maxRetries) {n : ℕ} {c : LinkedCall} (h : c.env.NewWork n)
    (hn : n ≤ s.link.opened) : (s.perform cfg c).result ≠ .error .writeFailed := by
  have hnot : ¬ SnowflakeSink.AllAttemptsFail cfg (c.env.callEnv s.link) := by
    intro hfail
    obtain ⟨i, hi, hok⟩ := h.succeeds hretries hn
    rw [hfail.2 i hi] at hok
    cases hok
  have hresult : (s.perform cfg c).result = ((c.erase s.link).perform cfg s.sink).result :=
    congrArg CallResult.result (s.perform_erases cfg c)
  rw [hresult]
  intro hraise
  cases c with
  | flush env => exact hnot ((SnowflakeSink.flush_error_iff cfg _ _).mp hraise).2
  | publish env event => exact hnot ((SnowflakeSink.publish_error_iff cfg _ _ _).mp hraise).2.2

/-- A flush that meets working new connections leaves nothing to write. -/
theorem flush_empties (hretries : 2 ≤ cfg.maxRetries) {n : ℕ} {env : LinkedEnv} (h : env.NewWork n)
    (hn : n ≤ s.link.opened) : (s.flush cfg env).after.sink.buffer = [] := by
  have hsink : (s.flush cfg env).after.sink = (s.sink.flush cfg (env.callEnv s.link)).sink :=
    congrArg CallResult.sink (s.flush_erases cfg env)
  rw [hsink]
  exact (s.sink.flush_of_succeeds cfg _ fun _ => h.succeeds hretries hn).1

end LinkedSink

/-- The connection never reports that it is closed, and every attempt over it fails. -/
def LinkedEnv.Stuck (c : ℕ) (env : LinkedEnv) : Prop :=
  ∀ attempt, (env.round attempt).closed c = false ∧ ((env.round attempt).outcome c).succeeded = false

section Stuck

variable {cfg : Config} {c : ℕ}

theorem stuck_writeLoop {l : Link} (hconn : l.conn = some c) (hretries : cfg.maxRetries ≤ 1)
    {env : LinkedEnv} (h : env.Stuck c) :
    let loop := l.writeLoop cfg.maxRetries env.round cfg.maxRetries.toNat 1
    loop.1 = l ∧ ∀ r ∈ loop.2.1, r.attempt.succeeded = false := by
  have hleft : cfg.maxRetries.toNat = 0 ∨ cfg.maxRetries.toNat = 1 := by omega
  have htry : l.tryWrite (env.round 1) 1 = (l, ⟨some c, 1, (env.round 1).outcome c⟩) := by
    have hget : l.getConn (env.round 1) = (l, some c) := by
      rw [Link.getConn, hconn]
      show (if (env.round 1).closed c = true then _ else _) = _
      rw [(h 1).1]
      rfl
    rw [Link.tryWrite, hget]
  rcases hleft with hzero | hone
  · rw [hzero]
    exact ⟨rfl, fun r hr => absurd hr List.not_mem_nil⟩
  · rw [hone]
    simp only [Link.writeLoop, htry, (h 1).2]
    rw [if_neg Bool.false_ne_true, if_neg (by omega)]
    refine ⟨rfl, fun r hr => ?_⟩
    rw [List.mem_singleton.mp hr]
    exact (h 1).2

theorem stuck_flush {s : LinkedSink} (hconn : s.link.conn = some c) (hretries : cfg.maxRetries ≤ 1)
    {env : LinkedEnv} (h : env.Stuck c) :
    (s.flush cfg env).after.link = s.link ∧
      ∀ w ∈ (s.flush cfg env).rounds, w.2.attempt.succeeded = false := by
  obtain ⟨hlink, hfail⟩ := stuck_writeLoop hconn hretries h
  have hrounds : ∀ (batch : List ChangeEvent), ∀ w ∈ (s.link.writeLoop cfg.maxRetries env.round
      cfg.maxRetries.toNat 1).2.1.map fun r => (batch, r), w.2.attempt.succeeded = false := by
    intro batch w hw
    obtain ⟨r, hr, rfl⟩ := List.mem_map.mp hw
    exact hfail r hr
  rw [LinkedSink.flush]
  split
  · exact ⟨rfl, fun w hw => absurd hw List.not_mem_nil⟩
  · dsimp only
    split <;> exact ⟨hlink, hrounds s.sink.buffer⟩

/-- **With a single attempt a flush keeps the connection that failed**, and a silent one for good: no run
of calls writes anything. -/
theorem stuck_run (hretries : cfg.maxRetries ≤ 1) (start : ℚ) {link : Link} (hconn : link.conn = some c)
    {calls : List LinkedCall} (h : ∀ call ∈ calls, call.env.Stuck c) :
    (LinkedRun.run cfg start link calls).current.link.conn = some c ∧
      writtenBatches (LinkedRun.run cfg start link calls).writes = [] := by
  have hrun : (LinkedRun.run cfg start link calls).current.link.conn = some c ∧
      ∀ w ∈ (LinkedRun.run cfg start link calls).rounds, w.2.attempt.succeeded = false := by
    refine Replay.run_invariant (LinkedRun.call cfg)
      (P := fun r => r.current.link.conn = some c ∧ ∀ w ∈ r.rounds, w.2.attempt.succeeded = false) ?_ ?_
    · exact ⟨hconn, fun w hw => absurd hw List.not_mem_nil⟩
    · intro call hcall r hr
      have hstep : (r.current.perform cfg call).after.link = r.current.link ∧
          ∀ w ∈ (r.current.perform cfg call).rounds, w.2.attempt.succeeded = false := by
        cases call with
        | flush env => exact stuck_flush hr.1 hretries (h _ hcall)
        | publish env event =>
            rw [LinkedSink.perform, LinkedSink.publish]
            split
            · exact ⟨rfl, fun w hw => absurd hw List.not_mem_nil⟩
            · dsimp only
              split
              · let appended : SnowflakeSink :=
                  { r.current.sink with buffer := r.current.sink.buffer ++ [event.normalized] }
                exact stuck_flush (s := ⟨appended, r.current.link⟩) hr.1 hretries (h _ hcall)
              · exact ⟨rfl, fun w hw => absurd hw List.not_mem_nil⟩
      refine ⟨(congrArg Link.conn hstep.1).trans hr.1, fun w hw => ?_⟩
      rcases List.mem_append.mp hw with hw | hw
      · exact hr.2 w hw
      · exact hstep.2 w hw
  refine ⟨hrun.1, ?_⟩
  rw [writtenBatches, List.map_eq_nil_iff, List.filter_eq_nil_iff]
  intro x hx
  obtain ⟨w, hw, rfl⟩ := List.mem_map.mp hx
  rw [hrun.2 w hw]
  exact Bool.false_ne_true

end Stuck

theorem publishedIn_flush (calls : List LinkedCall) (env : LinkedEnv) :
    publishedIn (calls ++ [.flush env]) = publishedIn calls := by
  rw [publishedIn, List.filterMap_append]
  exact List.append_nil _

/-- A run over working new connections does not raise, and a last flush writes what was published. -/
theorem new_connections_write {cfg : Config} (hretries : 2 ≤ cfg.maxRetries) (start : ℚ) (link : Link)
    {calls : List LinkedCall} {env : LinkedEnv}
    (h : ∀ call ∈ calls ++ [.flush env], call.env.NewWork link.opened) :
    let r := LinkedRun.run cfg start link (calls ++ [.flush env])
    (∀ x ∈ r.results, x ≠ .error .writeFailed) ∧
      (writtenBatches r.writes).flatten = replicated (publishedIn calls) := by
  intro r
  have hrun : ∀ calls' : List LinkedCall, (∀ call ∈ calls', call.env.NewWork link.opened) →
      (∀ x ∈ (LinkedRun.run cfg start link calls').results, x ≠ .error .writeFailed) ∧
        link.opened ≤ (LinkedRun.run cfg start link calls').current.link.opened := by
    intro calls' hworks
    refine Replay.run_invariant (LinkedRun.call cfg)
      (P := fun r => (∀ x ∈ r.results, x ≠ .error .writeFailed) ∧
        link.opened ≤ r.current.link.opened) ?_ ?_
    · exact ⟨fun x hx => absurd hx List.not_mem_nil, le_rfl⟩
    · intro call hcall r hr
      refine ⟨fun x hx => ?_, hr.2.trans (LinkedSink.opened_le_perform call)⟩
      rcases List.mem_append.mp hx with hx | hx
      · exact hr.1 x hx
      · rw [List.mem_singleton.mp hx]
        exact LinkedSink.perform_returns hretries (hworks call hcall) hr.2
  have hempty : r.current.sink.buffer = [] := by
    have hbefore := (hrun calls fun call hcall => h call (List.mem_append_left _ hcall)).2
    have hflush : LinkedEnv.NewWork link.opened env :=
      h (.flush env) (List.mem_append_right _ (List.mem_singleton.mpr rfl))
    have hsnoc : r = (LinkedRun.run cfg start link calls).call cfg (.flush env) :=
      Replay.run_append _ _ _ _
    rw [hsnoc]
    exact LinkedSink.flush_empties hretries hflush hbefore
  refine ⟨(hrun _ h).1, ?_⟩
  have hone : 1 ≤ cfg.maxRetries := by omega
  have hconserves := SinkRun.run_conserves hone start
    (erasedCalls cfg ⟨.new start, link⟩ (calls ++ [.flush env]))
  have herase := run_erases cfg (calls ++ [.flush env]) ⟨⟨.new start, link⟩, [], []⟩
  rw [SinkRun.run, show (⟨SnowflakeSink.new start, []⟩ : SinkRun)
    = ⟨(LinkedSink.mk (.new start) link).sink, LinkedRun.writes ⟨⟨.new start, link⟩, [], []⟩⟩ from rfl,
    herase, publishedBy_erasedCalls, publishedIn_flush] at hconserves
  rw [← hconserves]
  show _ = (writtenBatches r.writes).flatten ++ r.current.sink.buffer
  rw [hempty, List.append_nil]

/-- A connection that has failed without being closed, and new ones that work. -/
def staleLink : Link := ⟨some 0, 1, fun _ h => Option.some.inj h ▸ Nat.zero_lt_one⟩

def staleEnv : LinkedEnv :=
  ⟨0, 0, fun _ => ⟨fun _ => false, true, fun c => ⟨if c = 0 then some 0 else none, fun _ => lastFirst 0⟩⟩⟩

theorem newWork_staleEnv : LinkedEnv.NewWork staleLink.opened staleEnv := by
  refine fun attempt => ⟨rfl, fun c hc => ?_⟩
  have hne : c ≠ 0 := Nat.one_le_iff_ne_zero.mp hc
  show (Attempt.mk (if c = 0 then some 0 else none) _).succeeded = true
  rw [if_neg hne]
  rfl

theorem stuck_staleEnv : staleEnv.Stuck 0 := fun _ => ⟨rfl, rfl⟩

/-- **A connection that has silently failed is replaced exactly when a flush makes two attempts.**  From
any connection, when every connection opened from now on works, all calls return and a last flush has
written every published event.  With one attempt or none, and as long as the connection does not report
that it is closed, nothing is ever written, whatever a new connection would do. -/
theorem stale_connection_replaced_iff (cfg : Config) :
    ((∀ (start : ℚ) (link : Link) (calls : List LinkedCall) (env : LinkedEnv),
      (∀ call ∈ calls ++ [.flush env], call.env.NewWork link.opened) →
      let r := LinkedRun.run cfg start link (calls ++ [.flush env])
      (∀ x ∈ r.results, x ≠ .error .writeFailed) ∧
        (writtenBatches r.writes).flatten = replicated (publishedIn calls)) ↔
      2 ≤ cfg.maxRetries) ∧
    (cfg.maxRetries ≤ 1 → ∀ (start : ℚ) (link : Link) (c : ℕ) (calls : List LinkedCall),
      link.conn = some c → (∀ call ∈ calls, call.env.Stuck c) →
        writtenBatches (LinkedRun.run cfg start link calls).writes = []) := by
  refine ⟨?_, fun hretries start link c calls hconn hstuck => (stuck_run hretries start hconn hstuck).2⟩
  constructor
  · intro h
    by_contra hretries
    have hone : cfg.maxRetries ≤ 1 := by omega
    let calls : List LinkedCall := [.publish staleEnv (deviceEvent .c (deviceRow "1" "tv") 10 12)]
    have henv : ∀ call ∈ calls ++ [.flush staleEnv], call.env = staleEnv := by
      intro call hcall
      rcases List.mem_append.mp hcall with hcall | hcall
      · rw [List.mem_singleton.mp hcall, LinkedCall.env]
      · rw [List.mem_singleton.mp hcall, LinkedCall.env]
    have hwritten := (h 0 staleLink calls staleEnv fun call hcall =>
      (henv call hcall).symm ▸ newWork_staleEnv).2
    have hstuck : ∀ call ∈ calls ++ [.flush staleEnv], call.env.Stuck 0 := by
      intro call hcall
      rw [henv call hcall]
      exact stuck_staleEnv
    rw [(stuck_run hone 0 rfl hstuck).2] at hwritten
    exact absurd hwritten (by decide)
  · intro hretries start link calls env h
    exact new_connections_write hretries start link h

/-- With three attempts the published device is written, with one it is not. -/
theorem stale_connection_replaced_device :
    (writtenBatches (LinkedRun.run ⟨500, 10, 3⟩ 0 staleLink
        ([.publish staleEnv (deviceEvent .c (deviceRow "1" "tv") 10 12)] ++ [.flush staleEnv])).writes).flatten
        = [deviceEvent .c (deviceRow "1" "tv") 10 12] ∧
      writtenBatches (LinkedRun.run ⟨500, 10, 1⟩ 0 staleLink
        [.publish staleEnv (deviceEvent .c (deviceRow "1" "tv") 10 12), .flush staleEnv]).writes = [] := by
  constructor
  · refine (((stale_connection_replaced_iff ⟨500, 10, 3⟩).1.mpr (by decide) 0 staleLink
      [.publish staleEnv (deviceEvent .c (deviceRow "1" "tv") 10 12)] staleEnv ?_).2).trans ?_
    · simp only [List.cons_append, List.nil_append, List.forall_mem_cons, List.not_mem_nil,
        false_imp_iff, implies_true, and_true]
      exact ⟨newWork_staleEnv, newWork_staleEnv⟩
    · decide
  · refine (stale_connection_replaced_iff ⟨500, 10, 1⟩).2 (by decide) 0 staleLink 0 _ rfl ?_
    simp only [List.forall_mem_cons, List.not_mem_nil, false_imp_iff, implies_true, and_true]
    exact ⟨stuck_staleEnv, stuck_staleEnv⟩

end PgSnowflakeCdc
