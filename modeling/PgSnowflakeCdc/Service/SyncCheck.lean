import PgSnowflakeCdc.Monitoring.Metrics
import PgSnowflakeCdc.Source.PgTable

/-!
# The row-count check (`sync_check.py`)

* `pgCount`, `sfCount` — the counts, with everything that may raise;
* `runSyncCheck` — the results of every table, and what is sent to Datadog; `exitCode`;
* `runSyncCheck_eq` — **no table disturbs another**: the results and reports are those of the tables, one
  after the other;
* `syncCheck_outcome` — when the check passes, and when somebody is told;
* `drift_le_lag` — **the counts differ by no more than the changes made since**;
* `lagsBy_of_written` — a service that has written all changes but the last ones lags by these;
* `no_false_alarm` — **a service whose lag stays within the threshold raises no alarm**, and passes the
  check as soon as everything can be counted.
-/

namespace PgSnowflakeCdc

open OrderedDict KeyedRows

/-! ### Counting -/

/-- What PostgreSQL answers: whether the connection opens, the row of `pg_stat_user_tables`, if there is
one, and `COUNT(*)`; a query without an answer raises. -/
structure PgAnswers where
  connects : Bool
  estimate : Option (Option ℤ)
  count : Option ℤ

/-- What Snowflake answers. -/
structure SfAnswers where
  connects : Bool
  count : Option ℤ

/-- `_pg_count`: the estimate, if it is positive. -/
def pgCount (a : PgAnswers) : Option ℤ :=
  if a.connects then
    match a.estimate with
    | none => none
    | some row =>
      let approx := row.getD 0
      if approx > 0 then some approx else a.count
  else none

/-- `_sf_count`. -/
def sfCount (a : SfAnswers) : Option ℤ := if a.connects then a.count else none

/-! ### Reports -/

/-- The digits, in groups of three. -/
def grouped : List Char → List Char
  | [] => []
  | c :: cs => if cs.length % 3 = 0 ∧ cs ≠ [] then c :: ',' :: grouped cs else c :: grouped cs

/-- `f"{n:,}"`. -/
def withCommas (n : ℤ) : String :=
  (if n < 0 then "-" else "") ++ String.ofList (grouped (Nat.toDigits 10 n.natAbs))

/-- A call of `send_metric_to_datadog` or `send_event_to_datadog`. -/
inductive Report where
  | metric (name : String) (value : Json) (tags : List String) : Report
  | event (title text alertType : String) (tags : List String) : Report

def Report.isEvent : Report → Bool
  | .metric .. => false
  | .event .. => true

/-- `payload`. -/
def Report.payload (d : Deployment) (now : ℤ) : Report → Json
  | .metric name value tags =>
    .obj [("series", .arr [.obj [("metric", .str name), ("points", .arr [.arr [.int now, value]]),
      ("type", .str "gauge"), ("tags", .arr ((d.globalTags ++ tags).map Json.str))]])]
  | .event title text alertType tags =>
    .obj [("title", .str title), ("text", .str text), ("alert_type", .str alertType),
      ("tags", .arr ((d.globalTags ++ tags).map Json.str)), ("source_type_name", .str "python")]

/-- The body of the request; without a key there is none. -/
def Report.body (d : Deployment) (now : ℤ) (r : Report) : Option String :=
  if d.ships then some (r.payload d now).dumps else none

/-- A payload is one that `json.dumps` writes faithfully. -/
theorem written_payload {d : Deployment} {now : ℤ} {r : Report}
    (h : ∀ name value tags, r = .metric name value tags → value.Written) :
    (r.payload d now).Written := by
  have htags : ∀ tags : List String, Json.Written (.arr (tags.map Json.str)) := by
    simp [Json.written_arr]
  cases r with
  | metric name value tags =>
      have hpoints : Json.Written (.arr [.arr [.int now, value]]) := by
        simp [Json.written_arr, h name value tags rfl]
      rw [Report.payload]
      generalize d.globalTags ++ tags = allTags
      simp [Json.written_obj, hpoints, htags, Json.written_arr]
  | event title text alertType tags =>
      rw [Report.payload]
      generalize d.globalTags ++ tags = allTags
      simp [Json.written_obj, htags]

theorem written_flag (b : Bool) : Json.Written (.float (if b then "1.0" else "0.0")) := by
  have htext := floatText_count (if b then 1 else 0)
  have hsame : toString (if b then 1 else 0) ++ ".0" = if b then "1.0" else "0.0" := by
    cases b <;> decide
  rw [hsame] at htext
  simpa [Json.Written, Json.floats] using htext

/-! ### The check -/

/-- `_TABLE_PAIRS`. -/
def tablePairs : List (String × String) :=
  [("public.customers", "CUSTOMERS"), ("public.customer_devices", "CUSTOMER_DEVICES")]

/-- The results of a table. -/
structure SyncResult where
  pg : ℤ
  sf : ℤ
  diff : ℤ
  inSync : Bool
deriving DecidableEq

/-- What the two databases answer for a pair of tables. -/
structure TableAnswers where
  pg : PgAnswers
  sf : SfAnswers

/-- The counts, when both arrive. -/
def TableAnswers.counts (a : TableAnswers) : Option (ℤ × ℤ) :=
  (pgCount a.pg).bind fun pg => (sfCount a.sf).map fun sf => (pg, sf)

/-- One round of the loop, up to the reports.  A count that raises leaves those behind it at zero. -/
def checkTable (threshold : ℤ) (a : TableAnswers) : SyncResult :=
  match pgCount a.pg with
  | none => ⟨0, 0, 0, false⟩
  | some pg =>
    match sfCount a.sf with
    | none => ⟨pg, 0, 0, false⟩
    | some sf => ⟨pg, sf, |pg - sf|, decide (|pg - sf| ≤ threshold)⟩

/-- The text of the event. -/
def driftText (threshold : ℤ) (r : SyncResult) : String :=
  "PostgreSQL has **" ++ withCommas r.pg ++ "** rows, Snowflake has **" ++ withCommas r.sf ++
    "** rows — drift of **" ++ withCommas r.diff ++ "** rows (threshold " ++ withCommas threshold ++
    ").\nCheck replication slot lag, or run scripts/reconcile.py."

/-- What a round reports, when both counts have arrived. -/
def reportsOf (d : Deployment) (threshold : ℤ) (sfTable : String) (r : SyncResult) : List Report :=
  let tags := ["table:" ++ lower sfTable]
  [.metric "cdc.sync.pg_row_count" (.int r.pg) tags, .metric "cdc.sync.sf_row_count" (.int r.sf) tags,
      .metric "cdc.sync.row_diff" (.int r.diff) tags,
      .metric "cdc.sync.in_sync" (.float (if r.inSync then "1.0" else "0.0")) tags]
    ++ if r.inSync then []
      else [.event ("[pg-snowflake-cdc] " ++ sfTable ++ " out of sync (" ++ d.env ++ ")")
        (driftText threshold r) "warning" tags]

/-- What a round reports. -/
def tableReports (d : Deployment) (threshold : ℤ) (sfTable : String) (a : TableAnswers) : List Report :=
  if a.counts.isSome then reportsOf d threshold sfTable (checkTable threshold a) else []

/-- `run_sync_check`: the results, and the reports in order. -/
def runSyncCheck (d : Deployment) (threshold : ℤ) (answers : String × String → TableAnswers) :
    Dict String SyncResult × List Report :=
  tablePairs.foldl (fun s pair =>
    (s.1.set pair.2 (checkTable threshold (answers pair)),
      s.2 ++ tableReports d threshold pair.2 (answers pair))) (∅, [])

/-- `sys.exit(0 if all_ok else 1)`. -/
def exitCode (results : Dict String SyncResult) : ℕ :=
  if results.entries.all fun e => e.2.inSync then 0 else 1

section Check

variable (d : Deployment) (threshold : ℤ) (answers : String × String → TableAnswers)

/-- **No table disturbs another**: every table has its results, whatever the other one raised, and the
reports follow one another. -/
theorem runSyncCheck_eq :
    (runSyncCheck d threshold answers).1.entries =
        tablePairs.map (fun pair => (pair.2, checkTable threshold (answers pair))) ∧
      (runSyncCheck d threshold answers).2 =
        tablePairs.flatMap fun pair => tableReports d threshold pair.2 (answers pair) := by
  refine ⟨?_, by simp [runSyncCheck, tablePairs]⟩
  show (Dict.set (Dict.set ∅ "CUSTOMERS" _) "CUSTOMER_DEVICES" _).entries = _
  rw [Dict.entries_set_of_notMem, Dict.entries_set_of_notMem]
  · rfl
  · simp
  · rw [Dict.mem_keys_set]
    decide

theorem counts_eq_some_iff {a : TableAnswers} {pg sf : ℤ} :
    a.counts = some (pg, sf) ↔ pgCount a.pg = some pg ∧ sfCount a.sf = some sf := by
  rw [TableAnswers.counts]
  cases pgCount a.pg <;> cases sfCount a.sf <;> simp

/-- A table is in sync when both counts arrive and lie close enough. -/
theorem checkTable_inSync_iff (a : TableAnswers) :
    (checkTable threshold a).inSync = true ↔
      ∃ pg sf, a.counts = some (pg, sf) ∧ |pg - sf| ≤ threshold := by
  simp only [counts_eq_some_iff, checkTable]
  cases pgCount a.pg <;> cases sfCount a.sf <;> simp

/-- When the check passes. -/
theorem exitCode_eq_zero_iff :
    exitCode (runSyncCheck d threshold answers).1 = 0 ↔
      ∀ pair ∈ tablePairs, ∃ pg sf, (answers pair).counts = some (pg, sf) ∧ |pg - sf| ≤ threshold := by
  have hall : ((runSyncCheck d threshold answers).1.entries.all fun e => e.2.inSync) = true ↔
      ∀ pair ∈ tablePairs, ∃ pg sf, (answers pair).counts = some (pg, sf) ∧ |pg - sf| ≤ threshold := by
    rw [(runSyncCheck_eq d threshold answers).1, List.all_map, List.all_eq_true]
    simp only [Function.comp_apply, checkTable_inSync_iff]
  rw [exitCode, ← hall]
  split
  · next h => exact iff_of_true rfl h
  · next h => exact iff_of_false (by decide) h

/-- When an event is sent. -/
theorem sends_event_iff :
    (∃ r ∈ (runSyncCheck d threshold answers).2, r.isEvent = true) ↔
      ∃ pair ∈ tablePairs, ∃ pg sf, (answers pair).counts = some (pg, sf) ∧ threshold < |pg - sf| := by
  have htable : ∀ (sfTable : String) (a : TableAnswers),
      (∃ r ∈ tableReports d threshold sfTable a, r.isEvent = true) ↔
        ∃ pg sf, a.counts = some (pg, sf) ∧ threshold < |pg - sf| := by
    intro sfTable a
    rw [tableReports, reportsOf]
    cases hcounts : a.counts with
    | none => simp
    | some c =>
        obtain ⟨pg, sf⟩ := c
        have hsync : (checkTable threshold a).inSync = true ↔ |pg - sf| ≤ threshold := by
          rw [checkTable_inSync_iff, hcounts]
          simp
        by_cases hclose : |pg - sf| ≤ threshold
        · simp [hsync.mpr hclose, Report.isEvent, hclose]
        · have hapart : (checkTable threshold a).inSync = false :=
            Bool.eq_false_iff.mpr fun h => hclose (hsync.mp h)
          simpa [hapart, Report.isEvent] using hclose
  rw [(runSyncCheck_eq d threshold answers).2]
  simp only [List.mem_flatMap]
  constructor
  · rintro ⟨r, ⟨pair, hpair, hr⟩, hevent⟩
    exact ⟨pair, hpair, (htable _ _).mp ⟨r, hr, hevent⟩⟩
  · rintro ⟨pair, hpair, hapart⟩
    obtain ⟨r, hr, hevent⟩ := (htable pair.2 _).mpr hapart
    exact ⟨r, ⟨pair, hpair, hr⟩, hevent⟩

/-- **The outcome of a check.**  It passes exactly when the counts of every table arrive and lie close
enough; an event is sent exactly when the counts of some table arrive and lie too far apart.  A table that
could not be counted makes the check fail, and nobody is told. -/
theorem syncCheck_outcome :
    (exitCode (runSyncCheck d threshold answers).1 = 0 ↔
        ∀ pair ∈ tablePairs, ∃ pg sf, (answers pair).counts = some (pg, sf) ∧ |pg - sf| ≤ threshold) ∧
      ((∃ r ∈ (runSyncCheck d threshold answers).2, r.isEvent = true) ↔
        ∃ pair ∈ tablePairs, ∃ pg sf,
          (answers pair).counts = some (pg, sf) ∧ threshold < |pg - sf|) :=
  ⟨exitCode_eq_zero_iff d threshold answers, sends_event_iff d threshold answers⟩

/-- Every report of a check reads back as its payload. -/
theorem loads_body {r : Report} (hr : r ∈ (runSyncCheck d threshold answers).2) {now : ℤ} {body : String}
    (hbody : r.body d now = some body) : Json.loads body = some (r.payload d now) := by
  have hwritten : (r.payload d now).Written := by
    apply written_payload
    intro name value tags hmetric
    rw [(runSyncCheck_eq d threshold answers).2] at hr
    obtain ⟨pair, -, hr⟩ := List.mem_flatMap.mp hr
    rw [tableReports, hmetric] at hr
    split at hr
    · rw [reportsOf, List.mem_append] at hr
      rcases hr with hr | hr
      · simp only [List.mem_cons, List.not_mem_nil, or_false, Report.metric.injEq] at hr
        rcases hr with ⟨-, rfl, -⟩ | ⟨-, rfl, -⟩ | ⟨-, rfl, -⟩ | ⟨-, rfl, -⟩
        · exact Json.written_int _
        · exact Json.written_int _
        · exact Json.written_int _
        · exact written_flag _
      · split at hr
        · cases hr
        · cases List.mem_singleton.mp hr
    · cases hr
  rw [Report.body] at hbody
  split at hbody
  · rw [← Option.some.inj hbody]
    exact Json.loads_dumps hwritten
  · cases hbody

end Check

/-! ### Replication and the counts -/

namespace PgTable

variable {P : Platform} {sfTable : String} {columns : List String} {pgTable : String}

/-- A table after some operations. -/
def afterSteps (t : PgTable P sfTable columns) :
    List (Stamp pgTable × PgOp P sfTable columns) → PgTable P sfTable columns
  | [] => t
  | s :: steps => (t.apply s.1 s.2).1.afterSteps steps

/-- The changes they are reported as. -/
def changesOf (t : PgTable P sfTable columns) :
    List (Stamp pgTable × PgOp P sfTable columns) → List ChangeEvent
  | [] => []
  | s :: steps => (t.apply s.1 s.2).2.toList ++ (t.apply s.1 s.2).1.changesOf steps

theorem afterSteps_append (t : PgTable P sfTable columns)
    (xs ys : List (Stamp pgTable × PgOp P sfTable columns)) :
    t.afterSteps (xs ++ ys) = (t.afterSteps xs).afterSteps ys := by
  induction xs generalizing t with
  | nil => rfl
  | cons s xs ih => exact ih _

theorem changesOf_ofTable (t : PgTable P sfTable columns)
    (steps : List (Stamp pgTable × PgOp P sfTable columns)) :
    ∀ e ∈ t.changesOf steps, e.OfTable P pgTable sfTable columns := by
  induction steps generalizing t with
  | nil => simp [changesOf]
  | cons s steps ih =>
      intro e he
      rcases List.mem_append.mp he with he | he
      · exact apply_event (Option.mem_toList.mp he)
      · exact ih _ e he

/-- **The images after some operations** that keep keys are the images before them with the changes
applied. -/
theorem images_afterSteps (t : PgTable P sfTable columns)
    {steps : List (Stamp pgTable × PgOp P sfTable columns)} (hkeeps : ∀ s ∈ steps, s.2.KeepsKey) :
    (t.afterSteps steps).images.Perm (applyChanges P sfTable (t.changesOf steps) t.images) := by
  apply perm_of_rowsAt (keyOf (pkOf sfTable))
  intro k
  apply List.Perm.of_eq
  rw [rowsAt_applyChanges (t.changesOf_ofTable steps)]
  induction steps generalizing t with
  | nil => rfl
  | cons s steps ih =>
      rw [afterSteps, changesOf, List.map_append, runOps_append,
        ← rowsAt_images_apply (hkeeps s List.mem_cons_self)]
      exact ih _ fun s' hs' => hkeeps s' (List.mem_cons_of_mem _ hs')

/-- One operation changes the number of rows by at most the number of changes it reports. -/
theorem length_apply (stamp : Stamp pgTable) (t : PgTable P sfTable columns)
    (op : PgOp P sfTable columns) :
    (t.apply stamp op).1.rows.length ≤ t.rows.length + (t.apply stamp op).2.toList.length ∧
      t.rows.length ≤ (t.apply stamp op).1.rows.length + (t.apply stamp op).2.toList.length := by
  rcases t.apply_cases stamp op with ⟨hnone, hrows⟩ | ⟨new, -, hrows, hop⟩ |
    ⟨old, -, new, -, hrows, hop⟩ | ⟨old, -, -, hrows, hop⟩
  · rw [hrows, hnone]
    simp
  · rw [hrows, hop]
    simp only [List.length_append, List.length_singleton, Option.toList_some]
    omega
  · rw [hrows, hop]
    simp only [List.length_map, Option.toList_some, List.length_singleton]
    omega
  · -- at most one row has the key
    have hone := (uniqueKeys_iff PgRow.key).mp t.unique old.key
    have hsplit := List.length_eq_length_filter_add (l := t.rows) fun r => decide (r.key = old.key)
    rw [rowsAt] at hone
    simp only [← decide_not] at hsplit
    rw [hrows, hop]
    simp only [Option.toList_some, List.length_singleton, ne_eq]
    omega

theorem length_afterSteps (t : PgTable P sfTable columns)
    (steps : List (Stamp pgTable × PgOp P sfTable columns)) :
    (t.afterSteps steps).rows.length ≤ t.rows.length + (t.changesOf steps).length ∧
      t.rows.length ≤ (t.afterSteps steps).rows.length + (t.changesOf steps).length := by
  induction steps generalizing t with
  | nil => simp [afterSteps, changesOf]
  | cons s steps ih =>
      have hstep := t.length_apply s.1 s.2
      have hrest := ih (t.apply s.1 s.2).1
      rw [afterSteps, changesOf, List.length_append]
      omega

/-- **The counts differ by no more than the changes made since** the table held what the source held. -/
theorem drift_le_lag (t : PgTable P sfTable columns)
    (steps : List (Stamp pgTable × PgOp P sfTable columns)) {sf : Table} (hsf : sf.Perm t.images) :
    |((t.afterSteps steps).rows.length : ℤ) - sf.length| ≤ (t.changesOf steps).length := by
  have hsize : sf.length = t.rows.length := by
    rw [hsf.length_eq, images, List.length_map]
  have hsteps := t.length_afterSteps steps
  rw [hsize, abs_le]
  omega

end PgTable

/-- A pair of tables whose replication lags: the Snowflake table is the PostgreSQL table as it was at most
`lag` changes ago.  Every count that arrives is right, and the estimate is off by at most `error`. -/
inductive LagsBy (P : Platform) (lag error : ℕ) (a : TableAnswers) : Prop
  | intro {sfTable pgTable : String} {columns : List String} (t : PgTable P sfTable columns)
      (steps : List (Stamp pgTable × PgOp P sfTable columns))
      (hlag : (t.changesOf steps).length ≤ lag) (sf : Table) (hsf : sf.Perm t.images)
      (hestimate : ∀ row ∈ a.pg.estimate, ∀ n ∈ row, |n - (t.afterSteps steps).rows.length| ≤ error)
      (hcount : ∀ n ∈ a.pg.count, n = (t.afterSteps steps).rows.length)
      (hsfCount : ∀ n ∈ a.sf.count, n = sf.length) : LagsBy P lag error a

/-- **A service that has written the changes of some operations** that keep keys, and has those of the
`later` ones still to write. -/
theorem lagsBy_of_written {P : Platform} {sfTable pgTable : String} {columns : List String}
    {lag error : ℕ} {a : TableAnswers} (t : PgTable P sfTable columns)
    {steps later : List (Stamp pgTable × PgOp P sfTable columns)} (hkeeps : ∀ s ∈ steps, s.2.KeepsKey)
    (hlag : ((t.afterSteps steps).changesOf later).length ≤ lag) {sf : Table}
    (hsf : sf.Perm (applyChanges P sfTable (t.changesOf steps) t.images))
    (hestimate : ∀ row ∈ a.pg.estimate, ∀ n ∈ row,
      |n - (t.afterSteps (steps ++ later)).rows.length| ≤ error)
    (hcount : ∀ n ∈ a.pg.count, n = (t.afterSteps (steps ++ later)).rows.length)
    (hsfCount : ∀ n ∈ a.sf.count, n = sf.length) : LagsBy P lag error a := by
  rw [t.afterSteps_append] at hestimate hcount
  exact .intro (t.afterSteps steps) later hlag sf (hsf.trans (t.images_afterSteps hkeeps).symm)
    hestimate hcount hsfCount

/-- The counts of such a pair. -/
theorem LagsBy.drift_le {P : Platform} {lag error : ℕ} {a : TableAnswers} (h : LagsBy P lag error a)
    {pg sf : ℤ} (hcounts : a.counts = some (pg, sf)) : |pg - sf| ≤ lag + error := by
  obtain ⟨t, steps, hlag, table, htable, hestimate, hcount, hsfCount⟩ := h
  obtain ⟨hpg, hsf⟩ := counts_eq_some_iff.mp hcounts
  have hdrift := t.drift_le_lag steps htable
  have hsize : sf = table.length := by
    rw [sfCount] at hsf
    split at hsf
    · exact hsfCount sf hsf
    · cases hsf
  have hnear : |pg - (t.afterSteps steps).rows.length| ≤ error := by
    have hexact : ∀ n ∈ a.pg.count, |n - (t.afterSteps steps).rows.length| ≤ (error : ℤ) := by
      intro n hn
      rw [hcount n hn, sub_self, abs_zero]
      exact Int.natCast_nonneg error
    rw [pgCount] at hpg
    split at hpg
    · cases hestimated : a.pg.estimate with
      | none =>
          rw [hestimated] at hpg
          cases hpg
      | some row =>
          rw [hestimated] at hpg
          dsimp only at hpg
          split at hpg
          · next hpos =>
            rw [← Option.some.inj hpg]
            cases row with
            | none => exact absurd hpos (lt_irrefl 0)
            | some n => exact hestimate (some n) hestimated n rfl
          · exact hexact pg hpg
    · cases hpg
  rw [hsize]
  have htriangle := abs_sub_le pg (t.afterSteps steps).rows.length (table.length : ℤ)
  omega

/-- **No false alarm.**  When lag and estimates stay within the threshold, nobody is told anything, and the
check passes exactly when all counts arrive. -/
theorem no_false_alarm (P : Platform) (d : Deployment) {threshold : ℤ} {lag error : ℕ}
    (hthreshold : (lag + error : ℤ) ≤ threshold) {answers : String × String → TableAnswers}
    (hlags : ∀ pair ∈ tablePairs, LagsBy P lag error (answers pair)) :
    (∀ r ∈ (runSyncCheck d threshold answers).2, r.isEvent = false) ∧
      (exitCode (runSyncCheck d threshold answers).1 = 0 ↔
        ∀ pair ∈ tablePairs, (answers pair).counts.isSome = true) := by
  constructor
  · intro r hr
    rw [← Bool.not_eq_true]
    intro hevent
    obtain ⟨pair, hpair, pg, sf, hcounts, hapart⟩ :=
      (sends_event_iff d threshold answers).mp ⟨r, hr, hevent⟩
    have hdrift := (hlags pair hpair).drift_le hcounts
    omega
  · rw [exitCode_eq_zero_iff]
    refine forall₂_congr fun pair hpair => ?_
    rw [Option.isSome_iff_exists]
    constructor
    · rintro ⟨pg, sf, hcounts, -⟩
      exact ⟨(pg, sf), hcounts⟩
    · rintro ⟨⟨pg, sf⟩, hcounts⟩
      exact ⟨pg, sf, hcounts, ((hlags pair hpair).drift_le hcounts).trans hthreshold⟩

/-- The answers of a service that has not written the one customer yet, without statistics. -/
def oneCustomerBehind : String × String → TableAnswers := fun pair =>
  if pair.2 = "CUSTOMERS" then ⟨⟨true, some none, some 1⟩, ⟨true, some 0⟩⟩
  else ⟨⟨true, some none, some 0⟩, ⟨true, some 0⟩⟩

theorem no_false_alarm_customers :
    (∀ r ∈ (runSyncCheck sampleDeployment 100 oneCustomerBehind).2, r.isEvent = false) ∧
      (exitCode (runSyncCheck sampleDeployment 100 oneCustomerBehind).1 = 0 ↔
        ∀ pair ∈ tablePairs, (oneCustomerBehind pair).counts.isSome = true) := by
  refine @no_false_alarm .ascii sampleDeployment 100 1 0 (by decide) _ fun pair hpair => ?_
  let empty : PgTable .ascii "CUSTOMERS" ["id", "tenant_id", "status"] := ⟨0, [], by simp⟩
  have hnone : ∀ n : ℤ, ∀ row ∈ some (none : Option ℤ), ∀ m ∈ row, |m - n| ≤ ((0 : ℕ) : ℤ) := by simp
  simp only [tablePairs, List.mem_cons, List.not_mem_nil, or_false] at hpair
  rcases hpair with rfl | rfl
  · exact .intro empty [(customerStamp 1, .insert freeCustomer)] (by decide) [] (List.Perm.refl _)
      (hnone _) (by simp [oneCustomerBehind]; rfl) (by simp [oneCustomerBehind])
  · exact .intro empty ([] : List (Stamp "customers" × _)) (by decide) [] (List.Perm.refl _)
      (hnone _) (by simp [oneCustomerBehind]; rfl) (by simp [oneCustomerBehind])

end PgSnowflakeCdc
