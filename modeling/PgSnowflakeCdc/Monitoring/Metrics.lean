import PgSnowflakeCdc.Foundations.Tally
import PgSnowflakeCdc.Monitoring.Logging

/-!
# Metrics without an agent (`monitoring.py`)

* `MetricCall`, `countEvent`, `countReconnect`, `sendHeartbeat`, … — the wrappers the other modules call;
* `HttpStatsd` — `_HttpStatsd`: counters and gauges under their sorted tags, and the worker that takes
  them over and posts them, as calls, flushes and answers of the metrics interface take turns;
* `counted_run` — **no increment is lost or reported twice**: what has been posted, what failed to be,
  and what is still kept add up to the increments made;
* `metricKey_perm` — a call counts under the same key in whatever order its tags are given;
* `gauges_run` — a gauge holds its latest value, and every request repeats it;
* `loads_metricsBody` — a request reads back as its series.
-/

namespace PgSnowflakeCdc

open OrderedDict Tally

/-! ### The wrappers -/

/-- A call of the statsd client; a gauge's number is given by its `repr`. -/
inductive MetricCall where
  | increment (metric : String) (value : ℕ) (tags : List String) : MetricCall
  | gauge (metric : String) (value : String) (tags : List String) : MetricCall

/-- `_OP_NAMES`. -/
def opNames : Dict String String := Dict.ofPairs [("c", "insert"), ("u", "update"), ("d", "delete")]

namespace Deployment

variable (d : Deployment)

/-- `count_event`. -/
def countEvent (table op stage : String) : MetricCall :=
  .increment (d.metricPrefix ++ ".events." ++ stage) 1
    ["table:" ++ table, "op:" ++ (opNames.get? op).getD op]

/-- `count_reconnect`. -/
def countReconnect : MetricCall := .increment (d.metricPrefix ++ ".reconnects") 1 []

/-- `count_snowflake_flush`. -/
def countSnowflakeFlush (table : String) (batchSize : ℕ) : MetricCall :=
  .increment (d.metricPrefix ++ ".snowflake.flush_events") batchSize ["table:" ++ table]

/-- `gauge_snowflake_flush_ms`. -/
def gaugeSnowflakeFlushMs (ms : String) : MetricCall :=
  .gauge (d.metricPrefix ++ ".snowflake.flush_duration_ms") ms []

/-- `count_snowflake_error`. -/
def countSnowflakeError (table reason : String) : MetricCall :=
  .increment (d.metricPrefix ++ ".snowflake.errors") 1
    ["table:" ++ table, "reason:" ++ String.ofList (reason.toList.take 32)]

/-- `gauge_poll_time`. -/
def gaugePollTime (ms : String) : MetricCall :=
  .gauge (d.metricPrefix ++ ".poll.duration_ms") ms []

/-- `send_heartbeat`. -/
def sendHeartbeat : List MetricCall :=
  [.increment (d.metricPrefix ++ ".reconnects") 0 [],
    .increment (d.metricPrefix ++ ".snowflake.errors") 0 []]

end Deployment

/-! ### The store -/

/-- `(metric, tuple(sorted(_GLOBAL_TAGS + tags)))`. -/
abbrev MetricKey := String × List String

def metricKey (d : Deployment) (metric : String) (tags : List String) : MetricKey :=
  (metric, (d.globalTags ++ tags).mergeSort fun a b => decide (a ≤ b))

/-- The number of a series and its type. -/
inductive Point where
  | gauge (value : String) : Point
  | count (value : ℕ) : Point
deriving DecidableEq

/-- An element of `series`. -/
structure Series where
  key : MetricKey
  now : ℤ
  point : Point

/-- `_HttpStatsd`; `posting` is the request under way, `sent` and `lost` record the requests that reached
the metrics interface and those that did not. -/
structure HttpStatsd where
  gauges : Dict MetricKey String
  counters : Dict MetricKey ℕ
  posting : Option (List Series)
  sent : List (List Series)
  lost : List (List Series)

/-- `_HttpStatsd.__init__`. -/
def HttpStatsd.new : HttpStatsd := ⟨∅, ∅, none, [], []⟩

inductive MetricsEvent where
  /-- A call, on any thread. -/
  | call (c : MetricCall) : MetricsEvent
  /-- The worker's `_flush`, up to its request. -/
  | flush (now : ℤ) : MetricsEvent
  /-- The request is over; `arrived` says whether the interface has it. -/
  | posted (arrived : Bool) : MetricsEvent

/-- The series of a snapshot: the gauges, then the counters. -/
def seriesOf (now : ℤ) (gauges : Dict MetricKey String) (counters : Dict MetricKey ℕ) : List Series :=
  (gauges.entries.map fun e => ⟨e.1, now, .gauge e.2⟩)
    ++ counters.entries.map fun e => ⟨e.1, now, .count e.2⟩

namespace HttpStatsd

variable (A : Adder) (d : Deployment)

/-- `increment` and `gauge`, under the lock. -/
def call (s : HttpStatsd) : MetricCall → HttpStatsd
  | .increment metric value tags =>
    { s with counters := A.count s.counters (metricKey d metric tags) value }
  | .gauge metric value tags => { s with gauges := s.gauges.set (metricKey d metric tags) value }

/-- `_flush` up to the request: the counters are taken over and cleared, the gauges are kept.  The worker
starts no request while one is under way. -/
def flush (s : HttpStatsd) (now : ℤ) : HttpStatsd :=
  if ¬ d.ships ∨ s.posting.isSome then s
  else
    let series := seriesOf now s.gauges s.counters
    { s with counters := ∅, posting := if series = [] then none else some series }

def posted (s : HttpStatsd) (arrived : Bool) : HttpStatsd :=
  match s.posting with
  | some series =>
    if arrived then { s with posting := none, sent := s.sent ++ [series] }
    else { s with posting := none, lost := s.lost ++ [series] }
  | none => s

def step (s : HttpStatsd) : MetricsEvent → HttpStatsd
  | .call c => s.call A d c
  | .flush now => s.flush d now
  | .posted arrived => s.posted arrived

def run (s : HttpStatsd) (events : List MetricsEvent) : HttpStatsd :=
  Replay.run (fun e s => s.step A d e) events s

/-! ### Where the increments are -/

/-- The counts of some series. -/
def counts (series : List Series) : List (MetricKey × ℕ) :=
  series.filterMap fun x =>
    match x.point with
    | .count n => some (x.key, n)
    | .gauge _ => none

theorem counts_append (xs ys : List Series) : counts (xs ++ ys) = counts xs ++ counts ys :=
  List.filterMap_append

/-- A snapshot holds the counters as they were. -/
theorem counts_seriesOf (now : ℤ) (gauges : Dict MetricKey String) (counters : Dict MetricKey ℕ) :
    counts (seriesOf now gauges counters) = counters.entries := by
  have hgauges : ∀ l : List (MetricKey × String),
      counts (l.map fun e => ⟨e.1, now, .gauge e.2⟩) = [] := by
    intro l
    induction l with
    | nil => rfl
    | cons e l ih => exact ih
  have hcounts : ∀ l : List (MetricKey × ℕ),
      counts (l.map fun e => ⟨e.1, now, .count e.2⟩) = l := by
    intro l
    induction l with
    | nil => rfl
    | cons e l ih => exact congrArg (e :: ·) ih
  rw [seriesOf, counts_append, hgauges, hcounts, List.nil_append]

/-- What is kept, on its way, posted or lost under the keys of `p`. -/
def counted (p : MetricKey → Bool) (s : HttpStatsd) : ℕ :=
  total p s.counters.entries + total p (counts (s.posting.getD [])) +
    total p (counts s.sent.flatten) + total p (counts s.lost.flatten)

/-- What a call adds under the keys of `p`. -/
def increment (p : MetricKey → Bool) : MetricCall → ℕ
  | .increment metric value tags => if p (metricKey d metric tags) then value else 0
  | .gauge _ _ _ => 0

/-- The calls among some events. -/
def callsOf (events : List MetricsEvent) : List MetricCall :=
  events.filterMap fun
    | .call c => some c
    | _ => none

/-- What some calls add under the keys of `p`. -/
def incremented (p : MetricKey → Bool) (calls : List MetricCall) : ℕ :=
  (calls.map (increment d p)).sum

variable {A d} {p : MetricKey → Bool}

theorem counted_call {s : HttpStatsd} {c : MetricCall}
    (h : counted p s + increment d p c ≤ A.bound) :
    counted p (s.call A d c) = counted p s + increment d p c := by
  cases c with
  | increment metric value tags =>
      rw [increment] at h ⊢
      have hcount := total_count A p s.counters (metricKey d metric tags) value (by
        rw [counted] at h
        omega)
      simp only [counted, call, hcount]
      omega
  | gauge metric value tags => rfl

theorem counted_flush (s : HttpStatsd) (now : ℤ) : counted p (s.flush d now) = counted p s := by
  rw [flush]
  split
  · rfl
  · next h =>
      have hposting : s.posting = none := by
        rw [not_or, Option.not_isSome_iff_eq_none] at h
        exact h.2
      have hcounts := counts_seriesOf now s.gauges s.counters
      have hsnapshot : counts ((if seriesOf now s.gauges s.counters = [] then none
          else some (seriesOf now s.gauges s.counters) : Option (List Series)).getD []) =
            s.counters.entries := by
        split
        · next hnil =>
            rw [hnil] at hcounts
            exact hcounts
        · exact hcounts
      simp only [counted, hsnapshot, hposting]
      simp [counts]

theorem counted_posted (s : HttpStatsd) (arrived : Bool) :
    counted p (s.posted arrived) = counted p s := by
  rw [posted]
  split
  · next series hposting =>
      have hflat : ∀ l : List (List Series),
          total p (counts (l ++ [series]).flatten) =
            total p (counts l.flatten) + total p (counts series) := by
        intro l
        rw [List.flatten_append, List.flatten_singleton, counts_append, total_append]
      split
      · simp only [counted, hposting, hflat, Option.getD_none, Option.getD_some]
        simp [counts]
        omega
      · simp only [counted, hposting, hflat, Option.getD_none, Option.getD_some]
        simp [counts]
        omega
  · rfl

/-- **No increment is lost or counted twice**, in any order of calls, flushes and answers: under every
set of keys the increments made are the ones kept, on their way, posted, or in a request that failed.
The induction keeps the sum within the range in which the counters' addition is exact. -/
theorem counted_run_from {s : HttpStatsd} {events : List MetricsEvent}
    (h : counted p s + incremented d p (callsOf events) ≤ A.bound) :
    counted p (s.run A d events) = counted p s + incremented d p (callsOf events) := by
  induction events generalizing s with
  | nil => rfl
  | cons e events ih =>
      rw [run, Replay.run_cons]
      cases e with
      | call c =>
          have hsum : incremented d p (callsOf (.call c :: events)) =
              increment d p c + incremented d p (callsOf events) := rfl
          rw [hsum] at h ⊢
          have hcall : counted p (s.call A d c) = counted p s + increment d p c :=
            counted_call (by omega)
          have hrest := ih (s := s.call A d c) (by omega)
          rw [run] at hrest
          refine hrest.trans ?_
          omega
      | flush now =>
          have hflush := counted_flush (d := d) (p := p) s now
          rw [← hflush] at h ⊢
          exact ih h
      | posted arrived =>
          have hposted := counted_posted (p := p) s arrived
          rw [← hposted] at h ⊢
          exact ih h

/-- From a new store, what is counted is what was incremented. -/
theorem counted_run_new {events : List MetricsEvent}
    (h : incremented d p (callsOf events) ≤ A.bound) :
    counted p (run A d .new events) = incremented d p (callsOf events) := by
  have hnew : counted p .new = 0 := rfl
  have hrun := @counted_run_from A d p .new events (by omega)
  rwa [hnew, Nat.zero_add] at hrun

/-- **The increments of a run are kept, on their way, posted or lost**, each of them once. -/
theorem counted_run (A : Adder) (d : Deployment) (p : MetricKey → Bool) (events : List MetricsEvent)
    (h : incremented d p (callsOf events) ≤ A.bound) :
    total p (run A d .new events).counters.entries +
        total p (counts ((run A d .new events).posting.getD [])) +
        total p (counts (run A d .new events).sent.flatten) +
        total p (counts (run A d .new events).lost.flatten) =
      incremented d p (callsOf events) :=
  counted_run_new h

/-- A count is posted, and another is made meanwhile. -/
def sampleMetrics : List MetricsEvent :=
  [.call sampleDeployment.countReconnect, .call (sampleDeployment.gaugePollTime "3.0"), .flush 10,
    .call sampleDeployment.countReconnect, .posted true]

theorem counted_run_sample :
    total (fun _ => true) (run .double sampleDeployment .new sampleMetrics).counters.entries +
        total (fun _ => true)
          (counts ((run .double sampleDeployment .new sampleMetrics).posting.getD [])) +
        total (fun _ => true) (counts (run .double sampleDeployment .new sampleMetrics).sent.flatten) +
        total (fun _ => true) (counts (run .double sampleDeployment .new sampleMetrics).lost.flatten) =
      2 :=
  counted_run .double sampleDeployment (fun _ => true) sampleMetrics (by decide)

/-! ### Gauges -/

/-- The value the last of some calls gives a gauge. -/
def lastGauge (d : Deployment) (key : MetricKey) (calls : List MetricCall) : Option String :=
  (calls.filterMap fun
    | .gauge metric value tags => if metricKey d metric tags = key then some value else none
    | .increment _ _ _ => none).getLast?

theorem lastGauge_snoc (d : Deployment) (key : MetricKey) (calls : List MetricCall) (c : MetricCall) :
    lastGauge d key (calls ++ [c]) = (lastGauge d key [c]).or (lastGauge d key calls) := by
  rw [lastGauge, lastGauge, lastGauge, List.filterMap_append, List.getLast?_append]

/-- **A gauge holds the value it was given last**, whatever else has happened. -/
theorem gauges_run (A : Adder) (d : Deployment) (events : List MetricsEvent) (key : MetricKey) :
    (run A d .new events).gauges.get? key = lastGauge d key (callsOf events) := by
  induction events using List.reverseRecOn with
  | nil => rfl
  | append_singleton events e ih =>
      rw [run, Replay.run_append]
      show (step A d (run A d .new events) e).gauges.get? key = _
      cases e with
      | call c =>
          rw [show callsOf (events ++ [.call c]) = callsOf events ++ [c] from List.filterMap_append,
            lastGauge_snoc, ← ih]
          cases c with
          | increment metric value tags => rfl
          | gauge metric value tags =>
              show ((run A d .new events).gauges.set (metricKey d metric tags) value).get? key = _
              rw [Dict.get?_set]
              by_cases hkey : key = metricKey d metric tags
              · rw [if_pos hkey, lastGauge]
                simp [hkey]
              · rw [if_neg hkey, lastGauge]
                simp [Ne.symm hkey]
      | flush now =>
          rw [show callsOf (events ++ [.flush now]) = callsOf events by simp [callsOf], ← ih, step,
            flush]
          split
          · rfl
          · rfl
      | posted arrived =>
          rw [show callsOf (events ++ [.posted arrived]) = callsOf events by simp [callsOf], ← ih,
            step, posted]
          split
          · split
            · rfl
            · rfl
          · rfl

/-- **Every request repeats every gauge**, with its latest value. -/
theorem gauges_reported (A : Adder) (d : Deployment) (events : List MetricsEvent) (now : ℤ)
    (hships : d.ships = true) (hidle : (run A d .new events).posting = none) (key : MetricKey)
    (value : String) :
    ⟨key, now, .gauge value⟩ ∈ (run A d .new (events ++ [.flush now])).posting.getD [] ↔
      lastGauge d key (callsOf events) = some value := by
  have hrun : run A d .new (events ++ [.flush now]) = (run A d .new events).flush d now :=
    Replay.run_append _ _ _ _
  have hposting : ((run A d .new events).flush d now).posting.getD [] =
      seriesOf now (run A d .new events).gauges (run A d .new events).counters := by
    rw [flush, if_neg (by simp [hships, hidle])]
    dsimp only
    split
    · next hnil => exact hnil.symm
    · rfl
  rw [hrun, hposting, ← gauges_run A d events key, Dict.get?_eq_some_iff, seriesOf, List.mem_append]
  simp

theorem gauges_reported_sample :
    ⟨metricKey sampleDeployment "cdc.poll.duration_ms" [], 10, .gauge "3.0"⟩ ∈
      (run .double sampleDeployment .new
        ([.call (sampleDeployment.gaugePollTime "3.0")] ++ [.flush 10])).posting.getD [] :=
  (gauges_reported .double sampleDeployment [.call (sampleDeployment.gaugePollTime "3.0")] 10
    (by decide) rfl _ _).mpr (by
      show lastGauge sampleDeployment _ [.gauge ("cdc" ++ ".poll.duration_ms") "3.0" []] = _
      rw [show "cdc" ++ ".poll.duration_ms" = "cdc.poll.duration_ms" by decide]
      simp [lastGauge])

end HttpStatsd

/-! ### Keys -/

/-- **The order of the tags does not matter.** -/
theorem metricKey_perm (d : Deployment) (metric : String) {tags tags' : List String}
    (h : tags.Perm tags') : metricKey d metric tags = metricKey d metric tags' := by
  have hsorted : ∀ l : List String,
      (l.mergeSort fun a b => decide (a ≤ b)).Pairwise (· ≤ ·) := by
    intro l
    have hpairwise := @List.pairwise_mergeSort String (fun a b => decide (a ≤ b))
      (fun a b c hab hbc => by simpa using le_trans (by simpa using hab) (by simpa using hbc))
      (fun a b => by simpa using le_total a b) l
    exact hpairwise.imp fun hab => by simpa using hab
  have hperm : ((d.globalTags ++ tags).mergeSort fun a b => decide (a ≤ b)).Perm
      ((d.globalTags ++ tags').mergeSort fun a b => decide (a ≤ b)) :=
    (List.mergeSort_perm _ _).trans ((h.append_left d.globalTags).trans (List.mergeSort_perm _ _).symm)
  rw [metricKey, metricKey, hperm.eq_of_pairwise' (hsorted _) (hsorted _)]

/-! ### The request -/

/-- A count is a float: `repr` writes a whole number below 10¹⁶ with `.0`. -/
def Point.json : Point → Json
  | .gauge value => .float value
  | .count value => .float (toString value ++ ".0")

def Point.type : Point → String
  | .gauge _ => "gauge"
  | .count _ => "count"

def Series.json (x : Series) : Json :=
  .obj [("metric", .str x.key.1), ("points", .arr [.arr [.int x.now, x.point.json]]),
    ("type", .str x.point.type), ("tags", .arr (x.key.2.map Json.str))]

/-- `json.dumps({"series": series})`. -/
def metricsBody (series : List Series) : String :=
  Json.dumps (.obj [("series", .arr (series.map Series.json))])

theorem floatText_count (n : ℕ) : Json.FloatText (toString n ++ ".0") := by
  have htext : (toString n ++ ".0").toList = Nat.toDigits 10 n ++ ['.', '0'] := by
    rw [String.toList_append, Nat.toString_eq_ofList_toDigits, String.toList_ofList]
    rfl
  have hdigits : ∀ c ∈ Nat.toDigits 10 n, c.isDigit = true := fun c hc =>
    Nat.isDigit_of_mem_toDigits (by omega) (by omega) hc
  have hhead : (Nat.toDigits 10 n ++ ['.', '0']).head? = (Nat.toDigits 10 n).head? :=
    List.head?_append_of_ne_nil _ Nat.toDigits_ne_nil
  constructor
  · intro c hc
    rw [htext, List.mem_append] at hc
    rcases hc with hc | hc
    · exact Json.isWordChar_of_isDigit (hdigits c hc)
    · simp only [List.mem_cons, List.not_mem_nil, or_false] at hc
      rcases hc with rfl | rfl
      · decide
      · decide
  · have htake : (Nat.toDigits 10 n ++ ['.', '0']).takeWhile Char.isDigit = Nat.toDigits 10 n := by
      rw [List.takeWhile_append_of_pos hdigits]
      exact List.append_nil _
    have hdrop : (Nat.toDigits 10 n ++ ['.', '0']).dropWhile Char.isDigit = ['.', '0'] := by
      rw [List.dropWhile_append_of_pos hdigits]
      rfl
    have hback : String.ofList (Nat.toDigits 10 n ++ ['.', '0']) = toString n ++ ".0" := by
      rw [← htext, String.ofList_toList]
    rw [htext, Json.readNumber, hhead]
    simp only [Json.head?_toDigits_ne, if_false, htake, hdrop, Json.isIntPart_toDigits, hback]
    rfl

/-- The gauges of some series are finite. -/
def FiniteGauges (series : List Series) : Prop :=
  ∀ x ∈ series, ∀ value, x.point = .gauge value → Json.FloatText value

theorem written_series {x : Series} (h : ∀ value, x.point = .gauge value → Json.FloatText value) :
    x.json.Written := by
  have hpoint : x.point.json.Written := by
    cases hx : x.point with
    | gauge value => simpa [Json.Written, Json.floats, Point.json] using h value hx
    | count n => simpa [Json.Written, Json.floats, Point.json] using floatText_count n
  have hpoints : Json.Written (.arr [.arr [.int x.now, x.point.json]]) := by
    simp [Json.written_arr, hpoint]
  have htags : Json.Written (.arr (x.key.2.map Json.str)) := by
    simp [Json.written_arr]
  rw [Series.json, Json.written_obj]
  simp [hpoints, htags]

/-- **A request reads back as its series.** -/
theorem loads_metricsBody {series : List Series} (h : FiniteGauges series) :
    Json.loads (metricsBody series) = some (.obj [("series", .arr (series.map Series.json))]) := by
  apply Json.loads_dumps
  have hseries : Json.Written (.arr (series.map Series.json)) := by
    rw [Json.written_arr]
    intro y hy
    obtain ⟨x, hx, rfl⟩ := List.mem_map.mp hy
    exact written_series (h x hx)
  rw [Json.written_obj]
  simp [hseries]

/-- A request worth sending: not empty, with one series at most for a metric, its tags and a type, and
finite numbers. -/
structure Reportable (series : List Series) : Prop where
  ne_nil : series ≠ []
  nodup : (series.map fun x => (x.key, x.point.type)).Nodup
  finite : FiniteGauges series

namespace HttpStatsd

/-- The gauges are finite, and so is every request so far. -/
structure Healthy (s : HttpStatsd) : Prop where
  gauges : ∀ e ∈ s.gauges.entries, Json.FloatText e.2
  posting : ∀ series ∈ s.posting, Reportable series
  sent : ∀ series ∈ s.sent, Reportable series
  lost : ∀ series ∈ s.lost, Reportable series

/-- The keys of a dictionary occur once, so a snapshot has one series for each of them and each type. -/
theorem nodup_seriesOf (now : ℤ) (gauges : Dict MetricKey String) (counters : Dict MetricKey ℕ) :
    ((seriesOf now gauges counters).map fun x => (x.key, x.point.type)).Nodup := by
  have hgauges := (List.nodup_map_iff (f := fun k : MetricKey => (k, "gauge"))
    (fun a b h => congrArg Prod.fst h)).mpr gauges.nodup
  have hcounters := (List.nodup_map_iff (f := fun k : MetricKey => (k, "count"))
    (fun a b h => congrArg Prod.fst h)).mpr counters.nodup
  rw [List.map_map] at hgauges hcounters
  rw [seriesOf, List.map_append, List.map_map, List.map_map]
  refine List.nodup_append.mpr ⟨hgauges, hcounters, ?_⟩
  intro a ha b hb hab
  obtain ⟨e, -, rfl⟩ := List.mem_map.mp ha
  obtain ⟨e', -, rfl⟩ := List.mem_map.mp hb
  exact absurd (congrArg Prod.snd hab) (by simp [Point.type])

theorem finite_seriesOf {now : ℤ} {gauges : Dict MetricKey String} (counters : Dict MetricKey ℕ)
    (h : ∀ e ∈ gauges.entries, Json.FloatText e.2) : FiniteGauges (seriesOf now gauges counters) := by
  intro x hx value hvalue
  rw [seriesOf, List.mem_append] at hx
  rcases hx with hx | hx
  · obtain ⟨e, he, rfl⟩ := List.mem_map.mp hx
    rw [← Point.gauge.inj hvalue]
    exact h e he
  · obtain ⟨e, he, rfl⟩ := List.mem_map.mp hx
    cases hvalue

variable {A : Adder} {d : Deployment}

theorem Healthy.call {s : HttpStatsd} (h : Healthy s) {c : MetricCall}
    (hc : ∀ metric value tags, c = .gauge metric value tags → Json.FloatText value) :
    Healthy (s.call A d c) := by
  cases c with
  | increment metric value tags => exact ⟨h.gauges, h.posting, h.sent, h.lost⟩
  | gauge metric value tags =>
      refine ⟨?_, h.posting, h.sent, h.lost⟩
      intro e he
      rcases Dict.mem_of_mem_set he with rfl | he
      · exact hc metric value tags rfl
      · exact h.gauges e he

theorem Healthy.flush {s : HttpStatsd} (h : Healthy s) (now : ℤ) : Healthy (s.flush d now) := by
  rw [HttpStatsd.flush]
  split
  · exact h
  · refine ⟨h.gauges, ?_, h.sent, h.lost⟩
    intro series hseries
    dsimp only at hseries
    split at hseries
    · cases hseries
    · next hne =>
        rw [← Option.some.inj hseries]
        exact ⟨hne, nodup_seriesOf _ _ _, finite_seriesOf _ h.gauges⟩

theorem Healthy.posted {s : HttpStatsd} (h : Healthy s) (arrived : Bool) :
    Healthy (s.posted arrived) := by
  have hsnoc : ∀ {l : List (List Series)} {series : List Series}, s.posting = some series →
      (∀ x ∈ l, Reportable x) → ∀ x ∈ l ++ [series], Reportable x := by
    intro l series hposting hl x hx
    rcases List.mem_append.mp hx with hx | hx
    · exact hl x hx
    · rw [List.mem_singleton.mp hx]
      exact h.posting series hposting
  rw [HttpStatsd.posted]
  split
  · next series hposting =>
      split
      · exact ⟨h.gauges, by simp, hsnoc hposting h.sent, h.lost⟩
      · exact ⟨h.gauges, by simp, h.sent, hsnoc hposting h.lost⟩
  · exact h

/-- **Every request the metrics interface receives is one to keep**: it is not empty, has one series at
most for each metric, tag set and type, and its body reads back as its series, whatever the order of
calls, flushes and answers. -/
theorem sent_reads_back (A : Adder) (d : Deployment) (events : List MetricsEvent)
    (h : ∀ metric value tags, MetricCall.gauge metric value tags ∈ callsOf events →
      Json.FloatText value) :
    ∀ series ∈ (run A d .new events).sent, series ≠ [] ∧
      (series.map fun x => (x.key, x.point.type)).Nodup ∧
      Json.loads (metricsBody series) = some (.obj [("series", .arr (series.map Series.json))]) := by
  have hnew : Healthy .new := by
    constructor <;> simp [new]
  have hrun : Healthy (run A d .new events) := by
    refine Replay.run_invariant _ hnew fun e he s hs => ?_
    cases e with
    | call c =>
        refine hs.call fun metric value tags hc => ?_
        apply h metric value tags
        rw [callsOf, List.mem_filterMap]
        exact ⟨.call c, he, congrArg some hc⟩
    | flush now => exact hs.flush now
    | posted arrived => exact hs.posted arrived
  intro series hseries
  have hreportable := hrun.sent series hseries
  exact ⟨hreportable.ne_nil, hreportable.nodup, loads_metricsBody hreportable.finite⟩

/-- The request the sample run sends. -/
def sampleRequest : List Series :=
  (run .double sampleDeployment .new sampleMetrics).sent.headD []

theorem sent_reads_back_sample :
    sampleRequest ≠ [] ∧ (sampleRequest.map fun x => (x.key, x.point.type)).Nodup ∧
      Json.loads (metricsBody sampleRequest) =
        some (.obj [("series", .arr (sampleRequest.map Series.json))]) :=
  sent_reads_back .double sampleDeployment sampleMetrics (by
    intro metric value tags h
    simp only [sampleMetrics, callsOf, Deployment.countReconnect, Deployment.gaugePollTime,
      List.filterMap_cons, List.filterMap_nil, List.mem_cons, MetricCall.gauge.injEq, reduceCtorEq,
      List.not_mem_nil, or_false, false_or] at h
    rw [h.2.1, show "3.0" = toString 3 ++ ".0" by decide]
    exact floatText_count 3)
    sampleRequest List.mem_cons_self

end HttpStatsd

end PgSnowflakeCdc
