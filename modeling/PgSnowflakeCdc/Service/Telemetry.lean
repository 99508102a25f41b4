import PgSnowflakeCdc.Monitoring.Metrics
import PgSnowflakeCdc.Service.Iterations

/-!
# What the service reports of itself

The loop, the sink and the metrics worker share one `_HttpStatsd`.

* `metricCalls` — the calls `run` makes in a step: the reconnects, the polls, the heartbeats of quiet
  periods and the events processed;
* `SinkMetric` — the calls of the sink;
* `Monitored`, `run` — service and metrics together: a step of the loop leaves its metric calls to be made,
  and these, the sink's calls, flushes and answers of the metrics interface come in any order;
* `reopenings` — how often a run has opened the stream with `attempt` above 0;
* `reported_counts` — **the counters agree with the service's own variables** at every moment: what is
  reported, failed to be, is still kept and is about to be counted of `events.processed` and `reconnects`
  adds up to `total_events` and to the reopenings.
-/

namespace PgSnowflakeCdc

open Tally

/-- The letter of an operation, `event.op`. -/
def Op.letter : Op → String
  | .c => "c"
  | .u => "u"
  | .d => "d"

namespace Service

/-- The metric calls of `run` in a step; `pollMs` is the time the poll took. -/
def metricCalls (d : Deployment) (P : Platform) (cfg : ServiceConfig) (s : Service) (pollMs : String)
    (env : StepEnv) : List MetricCall :=
  match s.control with
  | .outerHead => if s.shutdown then [] else if 1 < s.attempt + 1 then [d.countReconnect] else []
  | .polling =>
    match env.poll with
    | none => []
    | some [] => d.gaugePollTime pollMs :: d.sendHeartbeat
    | some (_ :: _) => [d.gaugePollTime pollMs]
  | .iterating (c :: _) =>
    if s.shutdown then []
    else
      match (s.parser.parse P c.2 c.1).2 with
      | .error _ => []
      | .ok none => []
      | .ok (some event) =>
        if ¬ IsMapped event.table then []
        else
          match (s.sink.publish cfg.sink env.call event).result with
          | .error _ => []
          | .ok _ => [d.countEvent (normalizePgTable event.table) event.op.letter "processed"]
  | _ => []

/-- 1 when the next step opens the stream and an opening has failed since the last connection: `attempt` is
above 0. -/
def reopens (s : Service) : ℕ :=
  match s.control with
  | .outerHead => if s.shutdown then 0 else if 0 < s.attempt then 1 else 0
  | _ => 0

end Service

/-- The metric calls of the sink: two for a group of a batch, one when the last attempt has failed, one when
a flush is over. -/
inductive SinkMetric where
  | written (table : String) (events : ℕ) : SinkMetric
  | published (table : String) : SinkMetric
  | failed (reason : String) : SinkMetric
  | flushed (ms : String) : SinkMetric

def SinkMetric.metricCall (d : Deployment) : SinkMetric → MetricCall
  | .written table events => d.countSnowflakeFlush table events
  | .published table => d.countEvent table "flushed" "published"
  | .failed reason => d.countSnowflakeError "batch" (String.ofList (reason.toList.take 64))
  | .flushed ms => d.gaugeSnowflakeFlushMs ms

/-- The service with its metrics; the loop has yet to make the calls `due`. -/
structure Monitored where
  service : Service
  due : List MetricCall
  metrics : HttpStatsd

inductive MonitoredEvent where
  /-- SIGTERM or SIGINT. -/
  | signal : MonitoredEvent
  /-- The loop goes on, when it has no metric call to make. -/
  | proceed (env : StepEnv) (pollMs : String) : MonitoredEvent
  /-- The loop makes its next metric call. -/
  | call : MonitoredEvent
  | sink (m : SinkMetric) : MonitoredEvent
  | flush (now : ℤ) : MonitoredEvent
  | posted (arrived : Bool) : MonitoredEvent

namespace Monitored

/-- What an event is for the metrics. -/
def metricsEvent (d : Deployment) (m : Monitored) : MonitoredEvent → Option MetricsEvent
  | .signal => none
  | .proceed _ _ => none
  | .call => m.due.head?.map .call
  | .sink sm => some (.call (sm.metricCall d))
  | .flush now => some (.flush now)
  | .posted arrived => some (.posted arrived)

variable (A : Adder) (d : Deployment) (P : Platform) (cfg : ServiceConfig)

def step (m : Monitored) (e : MonitoredEvent) : Monitored :=
  let metrics := m.metrics.run A d (m.metricsEvent d e).toList
  match e with
  | .signal => ⟨m.service.step P cfg .signal, m.due, metrics⟩
  | .proceed env pollMs =>
    if m.due.isEmpty then
      ⟨m.service.step P cfg (.proceed env), m.service.metricCalls d P cfg pollMs env, metrics⟩
    else m
  | .call => ⟨m.service, m.due.tail, metrics⟩
  | _ => ⟨m.service, m.due, metrics⟩

def run (m : Monitored) (events : List MonitoredEvent) : Monitored :=
  Replay.run (fun e m => m.step A d P cfg e) events m

/-- The service and its metrics when `run` starts. -/
def start (now : ℚ) : Monitored := ⟨.start now, [], .new⟩

/-- What an event adds to the reopenings. -/
def reopens (m : Monitored) : MonitoredEvent → ℕ
  | .proceed _ _ => if m.due.isEmpty then m.service.reopens else 0
  | _ => 0

/-- How often a run opens the stream with `attempt` above 0. -/
def reopenings (m : Monitored) : List MonitoredEvent → ℕ
  | [] => 0
  | e :: events => m.reopens e + (m.step A d P cfg e).reopenings events

/-- The keys of a metric. -/
def ofMetric (name : String) (k : MetricKey) : Bool := k.1 = name

/-! ### Which metric a call counts -/

variable {d P cfg}

/-- A call counts under the keys of its own metric. -/
theorem increment_ofMetric (name metric : String) (value : ℕ) (tags : List String) :
    HttpStatsd.increment d (ofMetric name) (.increment metric value tags) =
      if metric = name then value else 0 := by
  by_cases h : metric = name
  · simp [HttpStatsd.increment, ofMetric, metricKey, h]
  · simp [HttpStatsd.increment, ofMetric, metricKey, h]

theorem append_inj_right {x y z : String} (h : x ++ y = x ++ z) : y = z := by
  have hlist := congrArg String.toList h
  rw [String.toList_append, String.toList_append] at hlist
  exact String.toList_inj.mp (List.append_cancel_left hlist)

theorem append_ne {x y z : String} (h : y ≠ z) : x ++ y ≠ x ++ z :=
  fun heq => h (append_inj_right heq)

/-- The metric of `count_event` for a processed event. -/
def processedMetric (d : Deployment) : String := d.metricPrefix ++ ".events." ++ "processed"

/-- The metric of `count_reconnect`. -/
def reconnectsMetric (d : Deployment) : String := d.metricPrefix ++ ".reconnects"

/-- The metrics of the service are distinct from each other and from those of the sink. -/
theorem metric_ne (d : Deployment) :
    d.metricPrefix ++ ".reconnects" ≠ processedMetric d ∧
      d.metricPrefix ++ ".snowflake.errors" ≠ processedMetric d ∧
      d.metricPrefix ++ ".snowflake.flush_events" ≠ processedMetric d ∧
      d.metricPrefix ++ ".events." ++ "published" ≠ processedMetric d ∧
      processedMetric d ≠ reconnectsMetric d ∧
      d.metricPrefix ++ ".snowflake.errors" ≠ reconnectsMetric d ∧
      d.metricPrefix ++ ".snowflake.flush_events" ≠ reconnectsMetric d ∧
      d.metricPrefix ++ ".events." ++ "published" ≠ reconnectsMetric d := by
  rw [processedMetric, reconnectsMetric, String.append_assoc, String.append_assoc]
  exact ⟨append_ne (by decide), append_ne (by decide), append_ne (by decide), append_ne (by decide),
    append_ne (by decide), append_ne (by decide), append_ne (by decide), append_ne (by decide)⟩

theorem incremented_singleton (name metric : String) (value : ℕ) (tags : List String) :
    HttpStatsd.incremented d (ofMetric name) [.increment metric value tags] =
      if metric = name then value else 0 := by
  rw [HttpStatsd.incremented, List.map_singleton, List.sum_singleton, increment_ofMetric]

/-- An event processed counts once, under its own metric. -/
theorem incremented_countEvent (table op : String) :
    HttpStatsd.incremented d (ofMetric (processedMetric d)) [d.countEvent table op "processed"] = 1 ∧
      HttpStatsd.incremented d (ofMetric (reconnectsMetric d)) [d.countEvent table op "processed"] =
        0 := by
  obtain ⟨-, -, -, -, hne, -⟩ := metric_ne d
  exact ⟨(incremented_singleton _ (processedMetric d) 1 _).trans (if_pos rfl),
    (incremented_singleton _ (processedMetric d) 1 _).trans (if_neg hne)⟩

theorem incremented_countReconnect :
    HttpStatsd.incremented d (ofMetric (processedMetric d)) [d.countReconnect] = 0 ∧
      HttpStatsd.incremented d (ofMetric (reconnectsMetric d)) [d.countReconnect] = 1 := by
  obtain ⟨hne, -⟩ := metric_ne d
  exact ⟨(incremented_singleton _ (reconnectsMetric d) 1 _).trans (if_neg hne),
    (incremented_singleton _ (reconnectsMetric d) 1 _).trans (if_pos rfl)⟩

theorem incremented_nil (name : String) : HttpStatsd.incremented d (ofMetric name) [] = 0 := rfl

/-- The sink counts under metrics of its own. -/
theorem incremented_sink (sm : SinkMetric) :
    HttpStatsd.incremented d (ofMetric (processedMetric d)) [sm.metricCall d] = 0 ∧
      HttpStatsd.incremented d (ofMetric (reconnectsMetric d)) [sm.metricCall d] = 0 := by
  obtain ⟨-, h1, h2, h3, -, h4, h5, h6⟩ := metric_ne d
  cases sm with
  | written table events =>
      have hone := fun (name : String) (tags : List String) =>
        incremented_singleton (d := d) name (d.metricPrefix ++ ".snowflake.flush_events") events tags
      exact ⟨(hone _ _).trans (if_neg h2), (hone _ _).trans (if_neg h5)⟩
  | published table =>
      exact ⟨(incremented_singleton _ (d.metricPrefix ++ ".events." ++ "published") 1 _).trans (if_neg h3),
        (incremented_singleton _ (d.metricPrefix ++ ".events." ++ "published") 1 _).trans (if_neg h6)⟩
  | failed reason =>
      exact ⟨(incremented_singleton _ (d.metricPrefix ++ ".snowflake.errors") 1 _).trans (if_neg h1),
        (incremented_singleton _ (d.metricPrefix ++ ".snowflake.errors") 1 _).trans (if_neg h4)⟩
  | flushed ms => exact ⟨rfl, rfl⟩

/-- The counts of a step of the service, by metric: the events it processes, and `reopened`. -/
structure StepCounts (d : Deployment) (s s' : Service) (calls : List MetricCall) (reopened : ℕ) :
    Prop where
  processed : HttpStatsd.incremented d (ofMetric (processedMetric d)) calls + s.totalEvents =
    s'.totalEvents
  reconnects : HttpStatsd.incremented d (ofMetric (reconnectsMetric d)) calls = reopened

theorem stepCounts_nil {s s' : Service} (hevents : s'.totalEvents = s.totalEvents) :
    StepCounts d s s' [] 0 :=
  ⟨(Nat.zero_add _).trans hevents.symm, rfl⟩

theorem totalEvents_afterError (s : Service) :
    (s.afterError cfg).totalEvents = s.totalEvents := by
  rw [Service.afterError]
  split
  · rfl
  · rfl

theorem stepCounts_afterError {s s₁ : Service} (hevents : s₁.totalEvents = s.totalEvents) :
    StepCounts d s (s₁.afterError cfg) [] 0 :=
  stepCounts_nil ((totalEvents_afterError s₁).trans hevents)

/-- A flush is the sink's affair. -/
theorem stepCounts_flushTo (s : Service) (call : CallEnv) (next : Control)
    {failed : Service → Service} (hevents : ∀ s', (failed s').totalEvents = s'.totalEvents) :
    StepCounts d s (s.flushTo cfg call next failed) [] 0 := by
  rcases Service.flushTo_cases cfg s call next failed with ⟨e, -, h⟩ | ⟨lsn, -, h⟩
  · rw [h]
    exact stepCounts_nil (hevents _)
  · rw [h]
    exact stepCounts_nil rfl

/-- A change counts when its event is published. -/
theorem stepCounts_processChange (s : Service) (call : CallEnv) (c : Change) (rest : List Change) :
    StepCounts d s (s.processChange P cfg call c rest)
      (match (s.parser.parse P c.2 c.1).2 with
        | .error _ => []
        | .ok none => []
        | .ok (some event) =>
          if ¬ IsMapped event.table then []
          else
            match (s.sink.publish cfg.sink call event).result with
            | .error _ => []
            | .ok _ => [d.countEvent (normalizePgTable event.table) event.op.letter "processed"]) 0 := by
  rcases Service.processChange_cases P cfg s call c rest with
    ⟨e, hparse, h⟩ | ⟨event, hparse, hunmapped, h⟩ | ⟨event, hparse, hmapped, h⟩
  · rw [h, hparse]
    exact stepCounts_afterError rfl
  · rw [h, hparse]
    cases event with
    | none => exact stepCounts_nil rfl
    | some event =>
        dsimp only
        rw [if_pos (hunmapped event rfl)]
        exact stepCounts_nil rfl
  · rw [hparse]
    dsimp only
    rw [if_neg (not_not_intro hmapped)]
    rcases h with ⟨e, hresult, h⟩ | ⟨lsn, hresult, h⟩
    · rw [h, hresult]
      exact stepCounts_afterError rfl
    · rw [h, hresult]
      -- the one branch that counts an event
      obtain ⟨hevents, hreconnects⟩ := incremented_countEvent (d := d)
        (normalizePgTable event.table) event.op.letter
      refine ⟨?_, hreconnects⟩
      rw [hevents]
      exact Nat.add_comm 1 s.totalEvents

/-- The gauges and the heartbeat of a poll count nothing. -/
theorem incremented_poll (name pollMs : String) :
    HttpStatsd.incremented d (ofMetric name) (d.gaugePollTime pollMs :: d.sendHeartbeat) = 0 := by
  simp [HttpStatsd.incremented, Deployment.gaugePollTime, Deployment.sendHeartbeat,
    HttpStatsd.increment]

/-- **What a step counts is what it does to the service's own variables.** -/
theorem stepCounts (s : Service) (pollMs : String) (env : StepEnv) :
    StepCounts d s (s.step P cfg (.proceed env)) (s.metricCalls d P cfg pollMs env) s.reopens := by
  rw [Service.step, Service.metricCalls, Service.reopens]
  cases hcontrol : s.control with
  | outerHead =>
      dsimp only
      split
      · exact stepCounts_nil rfl
      · obtain ⟨hevents, hreconnects⟩ := incremented_countReconnect (d := d)
        by_cases hattempt : 0 < s.attempt
        · rw [if_pos (Nat.lt_add_of_pos_left hattempt), if_pos hattempt]
          refine ⟨?_, hreconnects⟩
          rw [hevents]
          exact Nat.zero_add s.totalEvents
        · rw [if_neg (by omega), if_neg hattempt]
          exact stepCounts_nil rfl
  | connecting =>
      dsimp only
      split
      · exact stepCounts_nil rfl
      · exact stepCounts_afterError rfl
  | innerHead =>
      dsimp only
      split
      · exact stepCounts_nil rfl
      · exact stepCounts_nil rfl
  | polling =>
      dsimp only
      cases env.poll with
      | none => exact stepCounts_afterError rfl
      | some changes =>
          cases changes with
          | nil => exact ⟨by rw [incremented_poll]; exact Nat.zero_add _, incremented_poll _ _⟩
          | cons c rest => exact ⟨Nat.zero_add _, rfl⟩
  | iterating changes =>
      cases changes with
      | nil => exact stepCounts_nil rfl
      | cons c rest =>
          dsimp only
          split
          · exact stepCounts_nil rfl
          · exact stepCounts_processChange s env.call c rest
  | idleFlush => exact stepCounts_flushTo s env.call _ totalEvents_afterError
  | innerFlush => exact stepCounts_flushTo s env.call _ totalEvents_afterError
  | finalFlush => exact stepCounts_flushTo s env.call _ fun _ => rfl
  | stopped => exact stepCounts_nil rfl
  | crashed => exact stepCounts_nil rfl

/-- A step leaves one count to be made at most. -/
theorem incremented_metricCalls_le_one (s : Service) (pollMs : String) (env : StepEnv) :
    HttpStatsd.incremented d (ofMetric (processedMetric d)) (s.metricCalls d P cfg pollMs env) +
      HttpStatsd.incremented d (ofMetric (reconnectsMetric d)) (s.metricCalls d P cfg pollMs env) ≤ 1 := by
  have hnone : HttpStatsd.incremented d (ofMetric (processedMetric d)) [] +
      HttpStatsd.incremented d (ofMetric (reconnectsMetric d)) [] ≤ 1 := Nat.zero_le 1
  rw [Service.metricCalls]
  split
  · split
    · exact hnone
    · split
      · rw [incremented_countReconnect.1, incremented_countReconnect.2]
      · exact hnone
  · split
    · exact hnone
    · rw [incremented_poll, incremented_poll]
      exact Nat.zero_le 1
    · exact hnone
  · split
    · exact hnone
    · split
      · exact hnone
      · exact hnone
      · split
        · exact hnone
        · split
          · exact hnone
          · rw [(incremented_countEvent _ _).1, (incremented_countEvent _ _).2]
  · exact hnone

/-! ### Runs -/

/-- The metrics events of a run. -/
def metricsEvents (A : Adder) (d : Deployment) (P : Platform) (cfg : ServiceConfig) :
    Monitored → List MonitoredEvent → List MetricsEvent
  | _, [] => []
  | m, e :: events =>
    (m.metricsEvent d e).toList ++ metricsEvents A d P cfg (m.step A d P cfg e) events

theorem metrics_step (A : Adder) (m : Monitored) (e : MonitoredEvent) :
    (m.step A d P cfg e).metrics = m.metrics.run A d (m.metricsEvent d e).toList := by
  cases e with
  | proceed env pollMs =>
      rw [step]
      split
      · rfl
      · rfl
  | signal => rfl
  | call => rfl
  | sink sm => rfl
  | flush now => rfl
  | posted arrived => rfl

theorem metrics_run (A : Adder) (m : Monitored) (events : List MonitoredEvent) :
    (m.run A d P cfg events).metrics = m.metrics.run A d (metricsEvents A d P cfg m events) := by
  induction events generalizing m with
  | nil => rfl
  | cons e events ih =>
      rw [run, Replay.run_cons, metricsEvents]
      refine (ih (m.step A d P cfg e)).trans ?_
      rw [metrics_step]
      exact (Replay.run_append _ _ _ _).symm

theorem callsOf_append (xs ys : List MetricsEvent) :
    HttpStatsd.callsOf (xs ++ ys) = HttpStatsd.callsOf xs ++ HttpStatsd.callsOf ys :=
  List.filterMap_append

theorem incremented_append (name : String) (xs ys : List MetricCall) :
    HttpStatsd.incremented d (ofMetric name) (xs ++ ys) =
      HttpStatsd.incremented d (ofMetric name) xs + HttpStatsd.incremented d (ofMetric name) ys := by
  rw [HttpStatsd.incremented, List.map_append, List.sum_append]
  rfl

/-- Of a metric, `calls` have been made since `m`, and with those that are due now they make up for the
`steps` of the service. -/
def Counts (d : Deployment) (name : String) (m m' : Monitored) (calls : List MetricCall)
    (steps : ℕ) : Prop :=
  HttpStatsd.incremented d (ofMetric name) calls + HttpStatsd.incremented d (ofMetric name) m'.due =
    HttpStatsd.incremented d (ofMetric name) m.due + steps

theorem Counts.append {name : String} {m m₁ m₂ : Monitored} {xs ys : List MetricCall} {a b : ℕ}
    (h : Counts d name m m₁ xs a) (h' : Counts d name m₁ m₂ ys b) :
    Counts d name m m₂ (xs ++ ys) (a + b) := by
  rw [Counts] at h h' ⊢
  rw [incremented_append]
  omega

/-- A call is due until it is made. -/
theorem counts_call (name : String) (A : Adder) (m : Monitored) :
    Counts d name m (m.step A d P cfg .call)
      (HttpStatsd.callsOf (m.metricsEvent d .call).toList) 0 := by
  rw [Counts, step, metricsEvent]
  cases m.due with
  | nil => rfl
  | cons c due => exact (incremented_append name [c] due).symm

/-- What does not touch the loop counts elsewhere. -/
theorem counts_other {name : String} {m m' : Monitored} {calls : List MetricCall}
    (hdue : m'.due = m.due) (hcalls : HttpStatsd.incremented d (ofMetric name) calls = 0) :
    Counts d name m m' calls 0 := by
  rw [Counts, hdue, hcalls, Nat.zero_add, Nat.add_zero]

/-- **An event**: the calls made and due make up for what the service has done. -/
theorem counts_event (A : Adder) (m : Monitored) (e : MonitoredEvent) :
    m.service.totalEvents ≤ (m.step A d P cfg e).service.totalEvents ∧
    Counts d (processedMetric d) m (m.step A d P cfg e)
        (HttpStatsd.callsOf (m.metricsEvent d e).toList)
        ((m.step A d P cfg e).service.totalEvents - m.service.totalEvents) ∧
      Counts d (reconnectsMetric d) m (m.step A d P cfg e)
        (HttpStatsd.callsOf (m.metricsEvent d e).toList) (m.reopens e) := by
  have hsame : ∀ n : ℕ, n - n = 0 := Nat.sub_self
  cases e with
  | proceed env pollMs =>
      by_cases hdue : m.due.isEmpty = true
      · have hstep := @stepCounts d P cfg m.service pollMs env
        have hprocessed := hstep.processed
        rw [step, reopens, if_pos hdue, if_pos hdue]
        rw [List.isEmpty_iff] at hdue
        refine ⟨by dsimp only; omega, ?_, ?_⟩
        · rw [Counts, hdue]
          exact (Nat.zero_add _).trans ((Nat.eq_sub_of_add_eq hprocessed).trans (Nat.zero_add _).symm)
        · rw [Counts, hdue]
          exact (Nat.zero_add _).trans (hstep.reconnects.trans (Nat.zero_add _).symm)
      · rw [step, reopens, if_neg hdue, if_neg hdue, hsame]
        exact ⟨le_rfl, counts_other rfl rfl, counts_other rfl rfl⟩
  | signal =>
      refine ⟨le_rfl, ?_, counts_other rfl rfl⟩
      exact (hsame m.service.totalEvents).symm ▸ counts_other rfl rfl
  | call =>
      refine ⟨le_rfl, ?_, counts_call _ A m⟩
      exact (hsame m.service.totalEvents).symm ▸ counts_call _ A m
  | sink sm =>
      obtain ⟨hprocessed, hreconnects⟩ := incremented_sink (d := d) sm
      refine ⟨le_rfl, ?_, counts_other rfl hreconnects⟩
      exact (hsame m.service.totalEvents).symm ▸ counts_other rfl hprocessed
  | flush now =>
      refine ⟨le_rfl, ?_, counts_other rfl rfl⟩
      exact (hsame m.service.totalEvents).symm ▸ counts_other rfl rfl
  | posted arrived =>
      refine ⟨le_rfl, ?_, counts_other rfl rfl⟩
      exact (hsame m.service.totalEvents).symm ▸ counts_other rfl rfl

/-- **A run.** -/
theorem counts_run (A : Adder) (m : Monitored) (events : List MonitoredEvent) :
    m.service.totalEvents ≤ (m.run A d P cfg events).service.totalEvents ∧
    Counts d (processedMetric d) m (m.run A d P cfg events)
        (HttpStatsd.callsOf (metricsEvents A d P cfg m events))
        ((m.run A d P cfg events).service.totalEvents - m.service.totalEvents) ∧
      Counts d (reconnectsMetric d) m (m.run A d P cfg events)
        (HttpStatsd.callsOf (metricsEvents A d P cfg m events)) (m.reopenings A d P cfg events) := by
  induction events generalizing m with
  | nil =>
      refine ⟨le_rfl, ?_, counts_other rfl rfl⟩
      exact (Nat.sub_self m.service.totalEvents).symm ▸ counts_other rfl rfl
  | cons e events ih =>
      obtain ⟨hle, hprocessed, hreconnects⟩ := @counts_event d P cfg A m e
      obtain ⟨hle', hprocessed', hreconnects'⟩ := ih (m.step A d P cfg e)
      rw [metricsEvents, callsOf_append, reopenings]
      refine ⟨hle.trans hle', ?_, hreconnects.append hreconnects'⟩
      have hsum := hprocessed.append hprocessed'
      rwa [Nat.add_comm, Nat.sub_add_sub_cancel hle' hle] at hsum

/-- One count is due at most. -/
theorem due_le_one (A : Adder) (m : Monitored) (events : List MonitoredEvent)
    (h : HttpStatsd.incremented d (ofMetric (processedMetric d)) m.due +
      HttpStatsd.incremented d (ofMetric (reconnectsMetric d)) m.due ≤ 1) :
    HttpStatsd.incremented d (ofMetric (processedMetric d)) (m.run A d P cfg events).due +
      HttpStatsd.incremented d (ofMetric (reconnectsMetric d)) (m.run A d P cfg events).due ≤ 1 := by
  refine Replay.run_invariant (fun e (m : Monitored) => m.step A d P cfg e)
    (P := fun m : Monitored => HttpStatsd.incremented d (ofMetric (processedMetric d)) m.due +
      HttpStatsd.incremented d (ofMetric (reconnectsMetric d)) m.due ≤ 1) h ?_
  intro e _ m hm
  cases e with
  | proceed env pollMs =>
      rw [step]
      split
      · exact incremented_metricCalls_le_one m.service pollMs env
      · exact hm
  | call =>
      rw [step]
      dsimp only
      cases hdue : m.due with
      | nil => exact Nat.zero_le 1
      | cons c due =>
          rw [hdue] at hm
          have hsplit := fun name => incremented_append (d := d) name [c] due
          rw [show c :: due = [c] ++ due from rfl, hsplit, hsplit] at hm
          rw [List.tail_cons]
          omega
  | signal => exact hm
  | sink sm => exact hm
  | flush now => exact hm
  | posted arrived => exact hm

/-- What is kept, on its way, posted or lost of a metric. -/
def countedOf (name : String) (m : Monitored) : ℕ := HttpStatsd.counted (ofMetric name) m.metrics

/-- What the loop is about to count of a metric. -/
def dueOf (d : Deployment) (name : String) (m : Monitored) : ℕ :=
  HttpStatsd.incremented d (ofMetric name) m.due

/-- **The counters agree with the service's own variables**, whatever the order in which the loop, the
sink, the metrics worker and the metrics interface take their turns: of every event processed and every
reopening of the stream there is one count, kept, on its way, posted or in a request that failed, but for
one call that the loop is about to make. -/
theorem reported_counts (A : Adder) (d : Deployment) (P : Platform) (cfg : ServiceConfig) (now : ℚ)
    (events : List MonitoredEvent)
    (hevents : ((start now).run A d P cfg events).service.totalEvents ≤ A.bound)
    (hreopenings : (start now).reopenings A d P cfg events ≤ A.bound) :
    let m := (start now).run A d P cfg events
    countedOf (processedMetric d) m + dueOf d (processedMetric d) m = m.service.totalEvents ∧
      countedOf (reconnectsMetric d) m + dueOf d (reconnectsMetric d) m =
        (start now).reopenings A d P cfg events ∧
      dueOf d (processedMetric d) m + dueOf d (reconnectsMetric d) m ≤ 1 := by
  intro m
  obtain ⟨-, hprocessed, hreconnects⟩ := @counts_run d P cfg A (start now) events
  rw [Counts, show (start now).due = [] from rfl, incremented_nil, Nat.zero_add] at hprocessed hreconnects
  rw [show (start now).service.totalEvents = 0 from rfl, Nat.sub_zero] at hprocessed
  have hcounted : ∀ name, HttpStatsd.incremented d (ofMetric name)
      (HttpStatsd.callsOf (metricsEvents A d P cfg (start now) events)) ≤ A.bound →
      countedOf name m = HttpStatsd.incremented d (ofMetric name)
        (HttpStatsd.callsOf (metricsEvents A d P cfg (start now) events)) := by
    intro name hbound
    rw [countedOf, metrics_run]
    exact HttpStatsd.counted_run_new hbound
  refine ⟨?_, ?_, due_le_one A (start now) events (Nat.zero_le 1)⟩
  · rw [hcounted _ ((Nat.le_add_right _ _).trans (hprocessed.le.trans hevents))]
    exact hprocessed
  · rw [hcounted _ ((Nat.le_add_right _ _).trans (hreconnects.le.trans hreopenings))]
    exact hreconnects

/-- A failed opening, a reopening, a flush of the metrics, the call, and the answer of the interface. -/
theorem reported_counts_reconnect :
    let proceed (connects : Bool) : MonitoredEvent :=
      .proceed ⟨connects, some [], ⟨0, 0, fun _ => ⟨none, lastFirstTie⟩⟩⟩ "1.5"
    let events :=
      [proceed false, proceed false, proceed true, .flush 10, .call, proceed true, .posted false]
    let m := (start 0).run .double sampleDeployment .ascii ⟨⟨1, 10, 1⟩, 5, 120⟩ events
    countedOf (processedMetric sampleDeployment) m +
          dueOf sampleDeployment (processedMetric sampleDeployment) m =
        m.service.totalEvents ∧
      countedOf (reconnectsMetric sampleDeployment) m +
          dueOf sampleDeployment (reconnectsMetric sampleDeployment) m =
        (start 0).reopenings .double sampleDeployment .ascii ⟨⟨1, 10, 1⟩, 5, 120⟩ events ∧
      dueOf sampleDeployment (processedMetric sampleDeployment) m +
        dueOf sampleDeployment (reconnectsMetric sampleDeployment) m ≤ 1 :=
  reported_counts .double sampleDeployment .ascii ⟨⟨1, 10, 1⟩, 5, 120⟩ 0 _ (by decide +kernel)
    (by decide +kernel)

end Monitored

end PgSnowflakeCdc
