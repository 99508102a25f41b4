import PgSnowflakeCdc.Foundations.BatchQueue
import PgSnowflakeCdc.Foundations.OrderedDict
import PgSnowflakeCdc.JsonText

/-!
# Structured logs and their shipping (`monitoring.py`)

* `Deployment`, `globalTags` — the `DD_…` settings;
* `document`, `JsonFormatter.format` — a log record as one line of JSON;
* `format_document` — **every line reads back as its document**, in which the fields of a call's `extra`
  stand over the fixed ones;
* `LogShipper` — `_DDLogHandler`: the bounded queue, the worker's batch and the request in flight, as
  any number of logging threads, the worker and the intake take turns;
* `shipped_subsequence` — **the intake reads arrays of one to a hundred documents, which together are a
  subsequence of those emitted**; `run_delivers_all` — all of them, when no call meets a full queue and
  no request fails.
-/

namespace PgSnowflakeCdc

open OrderedDict

/-! ### Settings -/

/-- `DD_SERVICE`, `DD_ENV`, `DD_VERSION`, `DD_TEAM_TAG`, `DD_API_KEY` and `DD_METRIC_PREFIX`. -/
structure Deployment where
  service : String
  env : String
  version : String
  teamTag : Option String
  apiKey : String
  metricPrefix : String

namespace Deployment

/-- `_GLOBAL_TAGS`; an empty team tag counts as none. -/
def globalTags (d : Deployment) : List String :=
  ["env:" ++ d.env, "service:" ++ d.service, "version:" ++ d.version]
    ++ ((d.teamTag.filter (· ≠ "")).map ("team:" ++ ·)).toList

/-- `if not DD_API_KEY`, negated. -/
def ships (d : Deployment) : Bool := d.apiKey != ""

end Deployment

/-! ### The formatter -/

/-- A value in a record's `__dict__`: one that `json.dumps` encodes, or any other, which `default=str`
turns into its text. -/
inductive LogValue where
  | json (x : Json) : LogValue
  | other (text : String) : LogValue

def LogValue.encoded : LogValue → Json
  | .json x => x
  | .other text => .str text

/-- `record.exc_info`: the name of the type (`None` without one), `str` of the exception, and the
formatted traceback. -/
structure ExcInfo where
  kind : Option String
  message : String
  stack : String

structure LogRecord where
  name : String
  levelname : String
  /-- `record.getMessage()`. -/
  message : String
  excInfo : Option ExcInfo
  /-- `record.__dict__`: the standard attributes and the fields of `extra`. -/
  attributes : Dict String LogValue

/-- What the formatter asks the platform for: the time, the host name, and the trace and span number of a
valid current span. -/
structure LogContext where
  timestamp : String
  hostname : String
  span : Option (ℕ × ℕ)

/-- `_SKIP_KEYS`. -/
def skipKeys : List String :=
  ["name", "msg", "args", "levelname", "levelno", "pathname", "filename", "module", "exc_info",
    "exc_text", "stack_info", "lineno", "funcName", "created", "msecs", "relativeCreated", "thread",
    "threadName", "processName", "process", "message"]

/-- `str.lower`; level names are ASCII. -/
def lower (s : String) : String := String.ofList (s.toList.map Char.toLower)

/-- The literal `dd_ctx` starts from. -/
def ddFields (d : Deployment) : List (String × Json) :=
  [("service", .str d.service), ("env", .str d.env), ("version", .str d.version)]

/-- `dd_ctx`: the trace number is cut to its lower 64 bits. -/
def ddContext (d : Deployment) (ctx : LogContext) : Dict String Json :=
  let dd := Dict.ofPairs (ddFields d)
  match ctx.span with
  | some (traceId, spanId) =>
    (dd.set "trace_id" (.str (toString (traceId % 2 ^ 64)))).set "span_id" (.str (toString spanId))
  | none => dd

/-- The literal `doc` starts from. -/
def docFields (d : Deployment) (ctx : LogContext) (r : LogRecord) : List (String × Json) :=
  [("timestamp", .str ctx.timestamp), ("status", .str (lower r.levelname)),
    ("message", .str r.message), ("logger", .obj [("name", .str r.name)]),
    ("dd", .obj (ddContext d ctx).entries), ("service", .str d.service),
    ("ddsource", .str "python"), ("ddtags", .str (",".intercalate d.globalTags)),
    ("hostname", .str ctx.hostname)]

/-- `doc["error"]`. -/
def ExcInfo.error (e : ExcInfo) : Json :=
  .obj [("kind", (e.kind.map Json.str).getD .null), ("message", .str e.message),
    ("stack", .str e.stack)]

/-- The document in front of the loop over the record's attributes. -/
def fixedDocument (d : Deployment) (ctx : LogContext) (r : LogRecord) : Dict String Json :=
  let doc := Dict.ofPairs (docFields d ctx r)
  match r.excInfo with
  | some e => doc.set "error" e.error
  | none => doc

/-- The attributes the loop assigns. -/
def extraFields (r : LogRecord) : List (String × Json) :=
  (r.attributes.entries.filter fun p => p.1 ∉ skipKeys).map fun p => (p.1, p.2.encoded)

def document (d : Deployment) (ctx : LogContext) (r : LogRecord) : Dict String Json :=
  (fixedDocument d ctx r).update (extraFields r)

/-- `_JsonFormatter.format`. -/
def JsonFormatter.format (d : Deployment) (ctx : LogContext) (r : LogRecord) : String :=
  Json.dumps (.obj (document d ctx r).entries)

variable (d : Deployment) (ctx : LogContext) (r : LogRecord)

/-- An attribute that is not skipped is in the document, over a fixed field of its name. -/
theorem get?_document (k : String) :
    (document d ctx r).get? k =
      if k ∈ skipKeys then (fixedDocument d ctx r).get? k
      else ((r.attributes.get? k).map LogValue.encoded).or ((fixedDocument d ctx r).get? k) := by
  have hkeys : (extraFields r).map Prod.fst =
      (r.attributes.entries.filter fun p => p.1 ∉ skipKeys).map Prod.fst := by
    rw [extraFields, List.map_map]
    rfl
  have hnodup : ((extraFields r).map Prod.fst).Nodup := by
    rw [hkeys]
    exact r.attributes.nodup.sublist (List.filter_sublist.map _)
  rw [document, Dict.get?_update_of_nodup _ hnodup, extraFields,
    find_filter_map (fun k => decide (k ∉ skipKeys)) LogValue.encoded]
  by_cases hk : k ∈ skipKeys
  · simp [hk]
  · simp [hk, Dict.get?]

theorem written_ddContext : Json.Written (.obj (ddContext d ctx).entries) := by
  have hfields : ∀ p ∈ (Dict.ofPairs (ddFields d)).entries, p.2.Written := by
    intro p hp
    have hmem := Dict.mem_of_mem_ofPairs hp
    simp only [ddFields, List.mem_cons, List.not_mem_nil, or_false] at hmem
    rcases hmem with rfl | rfl | rfl <;> simp
  rw [Json.written_obj, ddContext]
  split
  · intro p hp
    rcases Dict.mem_of_mem_set hp with rfl | hp
    · simp
    · rcases Dict.mem_of_mem_set hp with rfl | hp
      · simp
      · exact hfields p hp
  · exact hfields

theorem written_error (e : ExcInfo) : e.error.Written := by
  rw [ExcInfo.error, Json.written_obj]
  cases e.kind <;> simp

/-- The fixed part holds no number. -/
theorem written_fixedDocument : ∀ p ∈ (fixedDocument d ctx r).entries, p.2.Written := by
  have hlogger : Json.Written (.obj [("name", .str r.name)]) := Json.written_obj.mpr (by simp)
  have hfields : ∀ p ∈ (Dict.ofPairs (docFields d ctx r)).entries, p.2.Written := by
    intro p hp
    have hmem := Dict.mem_of_mem_ofPairs hp
    simp only [docFields, List.mem_cons, List.not_mem_nil, or_false] at hmem
    rcases hmem with rfl | rfl | rfl | rfl | rfl | rfl | rfl | rfl | rfl <;>
      simp [hlogger, written_ddContext]
  rw [fixedDocument]
  split
  · intro p hp
    rcases Dict.mem_of_mem_set hp with rfl | hp
    · exact written_error _
    · exact hfields p hp
  · exact hfields

theorem written_document (h : ∀ p ∈ r.attributes.entries, p.2.encoded.Written) :
    (Json.obj (document d ctx r).entries).Written := by
  rw [Json.written_obj]
  intro p hp
  rcases Dict.mem_of_mem_update hp with hp | hp
  · obtain ⟨q, hq, rfl⟩ := List.mem_map.mp hp
    exact h q (List.mem_of_mem_filter hq)
  · exact written_fixedDocument d ctx r p hp

/-- **A log line is one line of printable ASCII that reads back as the record's document**, whatever
characters the message and the fields hold.  In the document a field of `extra` stands over the fixed
field of its name: an `extra` named `error` replaces the structured error with its traceback. -/
theorem format_document (d : Deployment) (ctx : LogContext) (r : LogRecord)
    (h : ∀ p ∈ r.attributes.entries, p.2.encoded.Written) :
    (∀ c ∈ (JsonFormatter.format d ctx r).toList, Json.Printable c) ∧
      ∃ doc : Dict String Json, Json.loads (JsonFormatter.format d ctx r) = some (.obj doc.entries) ∧
        ∀ k, doc.get? k =
          if k ∈ skipKeys then (fixedDocument d ctx r).get? k
          else ((r.attributes.get? k).map LogValue.encoded).or ((fixedDocument d ctx r).get? k) := by
  have hwritten := written_document d ctx r h
  exact ⟨Json.printable_dumps _ hwritten, document d ctx r, Json.loads_dumps hwritten,
    get?_document d ctx r⟩

/-- The line `main` logs when the stream fails: `exc_info` and an `extra` named `error`. -/
def streamErrorRecord : LogRecord where
  name := "cdc.main"
  levelname := "ERROR"
  message := "Replication stream error"
  excInfo := some ⟨some "OperationalError", "Größe ≥ 😀", "Traceback …"⟩
  attributes := Dict.ofPairs
    [("levelno", .json (.int 40)), ("attempt", .json (.int 1)), ("error", .json (.str "Größe ≥ 😀"))]

def sampleDeployment : Deployment := ⟨"pg-snowflake-cdc", "dev", "1.0.0", none, "key", "cdc"⟩

def sampleContext : LogContext := ⟨"2024-01-01T00:00:00.000Z", "cdc-0", some (2 ^ 64 + 1, 7)⟩

theorem written_streamErrorRecord :
    ∀ p ∈ streamErrorRecord.attributes.entries, p.2.encoded.Written := by
  decide

/-- The text of the error stands where the structured error stood. -/
theorem format_document_streamError :
    (∀ c ∈ (JsonFormatter.format sampleDeployment sampleContext streamErrorRecord).toList, Json.Printable c) ∧
      ∃ doc : Dict String Json,
        Json.loads (JsonFormatter.format sampleDeployment sampleContext streamErrorRecord) =
          some (.obj doc.entries) ∧
        doc.get? "error" = some (.str "Größe ≥ 😀") := by
  obtain ⟨hprintable, doc, hloads, hget⟩ := format_document sampleDeployment sampleContext
    streamErrorRecord written_streamErrorRecord
  refine ⟨hprintable, doc, hloads, ?_⟩
  rw [hget]
  decide

/-! ### The shipper -/

/-- `queue.Queue(maxsize=10_000)`. -/
def maxQueue : ℕ := 10000

/-- `_MAX_BATCH`. -/
def maxBatch : ℕ := 100

/-- The text `_post` sends. -/
def postBody (records : List String) : String := "[" ++ ",".intercalate records ++ "]"

/-- `_DDLogHandler`: its queue of lines with the worker. -/
abbrev LogShipper := BatchQueue.Batcher String

/-- What the threads around the handler do. -/
inductive ShipperEvent where
  /-- `emit`, on any thread. -/
  | emit (ctx : LogContext) (r : LogRecord) : ShipperEvent
  /-- `self._q.get` returns a line. -/
  | get : ShipperEvent
  /-- `self._q.get` raises `queue.Empty`. -/
  | timeout : ShipperEvent
  /-- `_post` returns; `sent` says whether the intake has the request. -/
  | posted (sent : Bool) : ShipperEvent

/-- Without a key `_post` sends nothing. -/
def ShipperEvent.toQueue (d : Deployment) : ShipperEvent → BatchQueue.Event String
  | .emit ctx r => .put (JsonFormatter.format d ctx r)
  | .get => .get
  | .timeout => .timeout
  | .posted sent => .posted (d.ships && sent)

/-- The handler after some events. -/
def LogShipper.run (d : Deployment) (events : List ShipperEvent) : LogShipper :=
  BatchQueue.Batcher.run maxQueue maxBatch .start (events.map (·.toQueue d))

/-- The bodies the intake has received. -/
def LogShipper.received (s : LogShipper) : List String := s.delivered.map postBody

/-- The documents of the records emitted. -/
def emittedDocuments (d : Deployment) (events : List ShipperEvent) : List Json :=
  events.filterMap fun
    | .emit ctx r => some (.obj (document d ctx r).entries)
    | _ => none

/-- The fields of every record emitted hold finite numbers only. -/
def FiniteFields (events : List ShipperEvent) : Prop :=
  ∀ ctx r, ShipperEvent.emit ctx r ∈ events → ∀ p ∈ r.attributes.entries, p.2.encoded.Written

theorem puts_toQueue (events : List ShipperEvent) :
    BatchQueue.puts (events.map (·.toQueue d)) = (emittedDocuments d events).map Json.dumps := by
  induction events with
  | nil => rfl
  | cons e events ih =>
      cases e with
      | emit ctx r => exact congrArg (JsonFormatter.format d ctx r :: ·) ih
      | get => exact ih
      | timeout => exact ih
      | posted sent => exact ih

theorem written_emittedDocuments {events : List ShipperEvent} (h : FiniteFields events) :
    ∀ x ∈ emittedDocuments d events, x.Written := by
  intro x hx
  obtain ⟨e, he, hdoc⟩ := List.mem_filterMap.mp hx
  cases e with
  | emit ctx r =>
      rw [← Option.some.inj hdoc]
      exact written_document d ctx r (h ctx r he)
  | get => cases hdoc
  | timeout => cases hdoc
  | posted sent => cases hdoc

/-- **The body of a batch is a JSON array of its documents**, although its lines are joined without a
blank. -/
theorem loads_postBody {xs : List Json} (hne : xs ≠ []) (h : ∀ x ∈ xs, x.Written) :
    Json.loads (postBody (xs.map Json.dumps)) = some (.arr xs) := by
  cases xs with
  | nil => exact absurd rfl hne
  | cons x xs =>
      have hjoin := Json.toList_join [] ']' x.dumps (xs.map Json.dumps)
      have htext : (postBody ((x :: xs).map Json.dumps)).toList =
          '[' :: (x.dumps.toList ++
            Json.tailText [] ']' ((xs.map Json.dumps).map String.toList)) := by
        rw [postBody, String.toList_append, String.toList_append, List.append_assoc,
          show "]".toList = [']'] by decide, show "[".toList = ['['] by decide]
        exact congrArg (['['] ++ ·) hjoin
      have hreads := @Json.reads_array [] (by simp) _ _ ((xs.map Json.dumps).map String.toList) xs
        (Json.reads_dumps x (h x List.mem_cons_self))
        (by
          rw [List.map_map, List.forall₂_map_left_iff, List.forall₂_same]
          exact fun y hy => Json.reads_dumps y (h y (List.mem_cons_of_mem _ hy)))
      rw [← htext] at hreads
      exact Json.loads_of_reads hreads (Nat.le_refl _)

/-- Batches of converted items are converted batches of items. -/
theorem exists_batches {α β : Type*} (f : α → β) (bs : List (List β)) {xs : List α}
    (h : bs.flatten = xs.map f) :
    ∃ batches : List (List α), batches.flatten = xs ∧ bs = batches.map (List.map f) := by
  induction bs generalizing xs with
  | nil =>
      rw [List.flatten_nil] at h
      exact ⟨[], (List.map_eq_nil_iff.mp h.symm).symm, rfl⟩
  | cons b bs ih =>
      rw [List.flatten_cons] at h
      obtain ⟨l₁, l₂, rfl, rfl, hrest⟩ := List.map_eq_append_iff.mp h.symm
      obtain ⟨batches, hflat, rfl⟩ := ih hrest.symm
      exact ⟨l₁ :: batches, by rw [List.flatten_cons, hflat], rfl⟩

/-- What the intake reads, when the lines it received are those of some documents. -/
theorem loads_received {s : LogShipper} {xs : List Json} (hxs : ∀ x ∈ xs, x.Written)
    (hflat : s.delivered.flatten = xs.map Json.dumps)
    (hlen : ∀ b ∈ s.delivered, 1 ≤ b.length ∧ b.length ≤ maxBatch) :
    ∃ batches : List (List Json), batches.flatten = xs ∧
      (∀ b ∈ batches, 1 ≤ b.length ∧ b.length ≤ maxBatch) ∧
      s.received.map Json.loads = batches.map fun b => some (.arr b) := by
  obtain ⟨batches, hbatches, hmap⟩ := exists_batches Json.dumps s.delivered hflat
  have hlen' : ∀ b ∈ batches, 1 ≤ b.length ∧ b.length ≤ maxBatch := by
    intro b hb
    have hb' := hlen (b.map Json.dumps) (by rw [hmap]; exact List.mem_map_of_mem hb)
    rwa [List.length_map] at hb'
  refine ⟨batches, hbatches, hlen', ?_⟩
  rw [LogShipper.received, hmap, List.map_map, List.map_map]
  apply List.map_congr_left
  intro b hb
  refine loads_postBody ?_ fun x hx => hxs x ?_
  · exact List.length_pos_iff.mp (hlen' b hb).1
  · rw [← hbatches]
    exact List.mem_flatten_of_mem hb hx

/-- **The intake never reads a document twice, out of order or one that was not emitted**: under every
interleaving of logging threads, worker and intake the bodies received are arrays of one to a hundred
documents, and all of them together are a subsequence of the documents emitted. -/
theorem shipped_subsequence (d : Deployment) (events : List ShipperEvent)
    (h : FiniteFields events) :
    ∃ batches : List (List Json), batches.flatten.Sublist (emittedDocuments d events) ∧
      (∀ b ∈ batches, 1 ≤ b.length ∧ b.length ≤ maxBatch) ∧
      (LogShipper.run d events).received.map Json.loads = batches.map fun b => some (.arr b) := by
  have hsub := @BatchQueue.Batcher.delivered_sublist_puts _ maxQueue maxBatch
    (by decide) (events.map (·.toQueue d))
  rw [puts_toQueue, List.sublist_map_iff] at hsub
  obtain ⟨xs, hxs, hflat⟩ := hsub
  have hsound := @BatchQueue.Batcher.sound_run _ maxQueue maxBatch _
    (BatchQueue.Batcher.sound_start (by decide)) (events.map (·.toQueue d))
  obtain ⟨batches, hbatches, hlen, hloads⟩ := loads_received
    (s := LogShipper.run d events)
    (fun x hx => written_emittedDocuments d h x (hxs.subset hx)) hflat
    (BatchQueue.Batcher.delivered_len hsound)
  exact ⟨batches, hbatches ▸ hxs, hlen, hloads⟩

/-- Two threads log, the worker takes one line, waits, and posts it. -/
def sampleShipping : List ShipperEvent :=
  [.emit sampleContext streamErrorRecord, .get, .emit sampleContext streamErrorRecord, .get, .timeout,
    .posted true]

theorem finiteFields_sampleShipping : FiniteFields sampleShipping := by
  intro ctx r hr
  simp only [sampleShipping, List.mem_cons, ShipperEvent.emit.injEq, reduceCtorEq, List.not_mem_nil,
    or_false, false_or] at hr
  rcases hr with ⟨-, rfl⟩ | ⟨-, rfl⟩
  · exact written_streamErrorRecord
  · exact written_streamErrorRecord

theorem shipped_subsequence_sample :
    ∃ batches : List (List Json),
      batches.flatten.Sublist (emittedDocuments sampleDeployment sampleShipping) ∧
      (∀ b ∈ batches, 1 ≤ b.length ∧ b.length ≤ maxBatch) ∧
      (LogShipper.run sampleDeployment sampleShipping).received.map Json.loads =
        batches.map fun b => some (.arr b) :=
  shipped_subsequence sampleDeployment sampleShipping finiteFields_sampleShipping

/-- What the worker does, as events of the handler. -/
theorem exists_worker_events (hships : d.ships = true) {es : List (BatchQueue.Event String)}
    (hputs : BatchQueue.puts es = []) :
    ∃ more : List ShipperEvent, emittedDocuments d more = [] ∧ more.map (·.toQueue d) = es := by
  induction es with
  | nil => exact ⟨[], rfl, rfl⟩
  | cons e es ih =>
      rw [show e :: es = [e] ++ es from rfl, BatchQueue.puts_append, List.append_eq_nil_iff] at hputs
      obtain ⟨more, hmore, hmap⟩ := ih hputs.2
      cases e with
      | put line => exact absurd hputs.1 (by simp [BatchQueue.puts])
      | get => exact ⟨.get :: more, hmore, congrArg (BatchQueue.Event.get :: ·) hmap⟩
      | timeout => exact ⟨.timeout :: more, hmore, congrArg (BatchQueue.Event.timeout :: ·) hmap⟩
      | posted sent =>
          refine ⟨.posted sent :: more, hmore, ?_⟩
          rw [List.map_cons, hmap, ShipperEvent.toQueue, hships, Bool.true_and]

/-- The line finds room in the queue. -/
def FindsRoom (s : LogShipper) (e : BatchQueue.Event String) : Prop :=
  BatchQueue.Batcher.Fits maxQueue s e

/-- **With a key, no full queue and no failed request every document arrives**: whatever the order of the
events, the worker alone can then bring all documents emitted to the intake, in order. -/
theorem run_delivers_all (d : Deployment) (events : List ShipperEvent) (h : FiniteFields events)
    (hships : d.ships = true) (hsent : ∀ e ∈ events, e ≠ .posted false)
    (hroom : Replay.Along (fun e s => BatchQueue.Batcher.step maxQueue maxBatch s e) FindsRoom
      (events.map (·.toQueue d)) .start) :
    ∃ more : List ShipperEvent, emittedDocuments d more = [] ∧
      ∃ batches : List (List Json), batches.flatten = emittedDocuments d events ∧
        (LogShipper.run d (events ++ more)).received.map Json.loads =
          batches.map fun b => some (.arr b) := by
  have hok : ∀ e ∈ events.map (·.toQueue d), e ≠ .posted false := by
    intro e he
    obtain ⟨e', he', rfl⟩ := List.mem_map.mp he
    cases e' with
    | emit ctx r => simp [ShipperEvent.toQueue]
    | get => simp [ShipperEvent.toQueue]
    | timeout => simp [ShipperEvent.toQueue]
    | posted sent =>
        cases sent with
        | true => simp [ShipperEvent.toQueue, hships]
        | false => exact absurd rfl (hsent _ he')
  obtain ⟨es, hputs, -, hall⟩ := BatchQueue.Batcher.delivers_all (by decide) hroom hok
  obtain ⟨more, hmore, hmap⟩ := exists_worker_events d hships hputs
  have hrun : LogShipper.run d (events ++ more) =
      BatchQueue.Batcher.run maxQueue maxBatch .start (events.map (·.toQueue d) ++ es) := by
    rw [LogShipper.run, List.map_append, hmap]
  have hsound := @BatchQueue.Batcher.sound_run _ maxQueue maxBatch _
    (BatchQueue.Batcher.sound_start (by decide)) (events.map (·.toQueue d) ++ es)
  rw [puts_toQueue, ← hrun] at hall
  rw [← hrun] at hsound
  obtain ⟨batches, hbatches, -, hloads⟩ := loads_received
    (written_emittedDocuments d h) hall (BatchQueue.Batcher.delivered_len hsound)
  exact ⟨more, hmore, batches, hbatches, hloads⟩

theorem run_delivers_all_sample :
    ∃ more : List ShipperEvent, emittedDocuments sampleDeployment more = [] ∧
      ∃ batches : List (List Json),
        batches.flatten = emittedDocuments sampleDeployment sampleShipping ∧
        (LogShipper.run sampleDeployment (sampleShipping ++ more)).received.map Json.loads =
          batches.map fun b => some (.arr b) :=
  run_delivers_all sampleDeployment sampleShipping finiteFields_sampleShipping (by decide)
    (by simp [sampleShipping]) (by
      refine ⟨?_, trivial, ?_, trivial, trivial, trivial, trivial⟩
      · show 0 < maxQueue
        decide
      · show 0 < maxQueue
        decide)

end PgSnowflakeCdc
