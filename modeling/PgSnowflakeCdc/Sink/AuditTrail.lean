import PgSnowflakeCdc.Sink.Columns
import PgSnowflakeCdc.Sink.History

/-!
# What the history tables are good for

The history table of a table holds the images of its events, each at least once.  Read back by the
queries that `snowflake_sink.py` and `sql/snowflake_setup.sql` have in mind, it holds the events once
each, and it holds every state the table has ever had.

* `mem_history_iff` — the rows of a history table once everything attempted has been written;
* `SinkRun.run_allWritten` — **this is so whenever the buffer is empty**, whatever failed on the way;
* `dedupHistory` — the query of `snowflake_sink.py`; `history_dedup_iff` — **it returns every event
  once exactly when no two events of the table have the same LSN**;
* `stateAsOf` — the last row of every key up to an LSN, unless it deletes the key;
* `history_replays` — **the state of the table at any LSN**: the changes up to there, one at a time;
* `current_from_history` — the current-state table is that view of the history table.
-/

namespace PgSnowflakeCdc

open OrderedDict RowNumbering KeyedRows

/-! ### The rows of the trail -/

/-- The written events that are changes of a table. -/
abbrev writtenTo (pgTable : String) (writes : List (List ChangeEvent × Attempt)) : List ChangeEvent :=
  (writtenBatches writes).flatten.filter fun e => normalizePgTable e.table = pgTable

/-- Repeated `n` times over, a block has the rows of the block. -/
theorem mem_flatten_replicate {α : Type*} {n : ℕ} {block : List α} {r : α} :
    r ∈ (List.replicate n block).flatten ↔ n ≠ 0 ∧ r ∈ block := by
  rw [List.mem_flatten]
  constructor
  · rintro ⟨l, hl, hr⟩
    obtain ⟨hn, rfl⟩ := List.mem_replicate.mp hl
    exact ⟨hn, hr⟩
  · rintro ⟨hn, hr⟩
    exact ⟨block, List.mem_replicate.mpr ⟨hn, rfl⟩, hr⟩

theorem ChangeEvent.OfMapped.keys_image {P : Platform} {columnsOf : String → List String}
    {e : ChangeEvent} (h : e.OfMapped P columnsOf) {sfCurrent sfHistory : String}
    (hmap : tableMap.get? (normalizePgTable e.table) = some (sfCurrent, sfHistory)) :
    ∀ data ∈ e.image, data.keys = columnsOf (normalizePgTable e.table) := by
  intro data hdata
  obtain ⟨row, himage, hkeys, -⟩ := (h.ofTable (sfCurrent, sfHistory) hmap).image
  rw [Option.mem_def, himage] at hdata
  rw [← Option.some.inj hdata, hkeys]

section Attempts

variable {P : Platform} {columnsOf : String → List String} {pgTable sfCurrent sfHistory : String}
  (hmap : tableMap.get? pgTable = some (sfCurrent, sfHistory))
  {writes : List (List ChangeEvent × Attempt)}

include hmap

/-- **What attempts leave in the history table**: a row of it is one that was there or an image of an
attempted batch; what was there stays, and a batch that is written leaves all its images. -/
theorem mem_attempts (hevents : ∀ w ∈ writes, ∀ e ∈ w.1, e.OfMapped P columnsOf) (st : Store) (r : SfRow) :
    (r ∈ applyWrites P writes st sfHistory → r ∈ st sfHistory ∨ ∃ w ∈ writes,
        r ∈ historyImages P sfHistory (w.1.filter fun e => normalizePgTable e.table = pgTable)) ∧
      ((r ∈ st sfHistory ∨ ∃ w ∈ writes, w.2.succeeded = true ∧
          r ∈ historyImages P sfHistory (w.1.filter fun e => normalizePgTable e.table = pgTable)) →
        r ∈ applyWrites P writes st sfHistory) := by
  induction writes generalizing st with
  | nil => simp [applyWrites]
  | cons w writes ih =>
    obtain ⟨hbatch, hrest⟩ := List.forall_mem_cons.mp hevents
    have hcols : ∀ e ∈ w.1, normalizePgTable e.table = pgTable → ∀ data ∈ e.image,
        data.keys = columnsOf pgTable := by
      rintro e he rfl
      exact (hbatch e he).keys_image hmap
    obtain ⟨n, -, hsucceeded, hrows⟩ := history_of_write hmap (fun e he => (hbatch e he).mapped) hcols w.2 st
    have hwrite : r ∈ applyWrite P w st sfHistory ↔ r ∈ st sfHistory ∨ n ≠ 0 ∧
        r ∈ historyImages P sfHistory (w.1.filter fun e => normalizePgTable e.table = pgTable) := by
      rw [← mem_flatten_replicate, ← List.mem_append]
      exact iff_of_eq (congrArg (r ∈ ·) hrows)
    obtain ⟨hfrom, hto⟩ := ih hrest (applyWrite P w st)
    rw [show applyWrites P (w :: writes) st = applyWrites P writes (applyWrite P w st) from rfl]
    constructor
    · intro hr
      rcases hfrom hr with hr | ⟨w', hw', hr⟩
      · refine (hwrite.mp hr).imp_right fun h => ⟨w, List.mem_cons_self, h.2⟩
      · exact Or.inr ⟨w', List.mem_cons_of_mem _ hw', hr⟩
    · intro hr
      apply hto
      rcases hr with hr | ⟨w', hw', hok, hr⟩
      · exact Or.inl (hwrite.mpr (Or.inl hr))
      · rcases List.mem_cons.mp hw' with rfl | hw'
        · exact Or.inl (hwrite.mpr (Or.inr ⟨by rw [hsucceeded hok]; exact one_ne_zero, hr⟩))
        · exact Or.inr ⟨w', hw', hok, hr⟩

end Attempts

/-- Every event of an attempt has been written in the end, by this attempt or by another one. -/
def AllWritten (writes : List (List ChangeEvent × Attempt)) : Prop :=
  ∀ w ∈ writes, ∀ e ∈ w.1, e ∈ (writtenBatches writes).flatten

section AllWritten

variable {P : Platform} {columnsOf : String → List String}
  {writes : List (List ChangeEvent × Attempt)}
  (hevents : ∀ e ∈ (writtenBatches writes).flatten, e.OfMapped P columnsOf)
  {pgTable sfCurrent sfHistory : String}
  (hmap : tableMap.get? pgTable = some (sfCurrent, sfHistory))

include hevents hmap

theorem ofTable_of_written :
    ∀ e ∈ writtenTo pgTable writes, e.OfTable P pgTable sfCurrent (columnsOf pgTable) :=
  ChangeEvent.OfMapped.ofTable_of_mem_group hevents hmap

/-- **Once everything attempted has been written, the images of the written events have been added to the
history table**, and nothing else. -/
theorem mem_history_iff (hall : AllWritten writes) (st : Store) (r : SfRow) :
    r ∈ applyWrites P writes st sfHistory ↔
      r ∈ st sfHistory ∨ r ∈ historyImages P sfHistory (writtenTo pgTable writes) := by
  obtain ⟨hfrom, hto⟩ := mem_attempts hmap (fun w hw e he => hevents e (hall w hw e he)) st r
  constructor
  · intro hr
    refine (hfrom hr).imp_right fun ⟨w, hw, hr⟩ => ?_
    obtain ⟨e, he, hrow⟩ := List.mem_filterMap.mp hr
    rw [List.mem_filter] at he
    exact List.mem_filterMap.mpr ⟨e, List.mem_filter.mpr ⟨hall w hw e he.1, he.2⟩, hrow⟩
  · intro hr
    refine hto (hr.imp_right fun hr => ?_)
    obtain ⟨e, he, hrow⟩ := List.mem_filterMap.mp hr
    obtain ⟨hmem, htable⟩ := List.mem_filter.mp he
    obtain ⟨batch, hbatch, hmem⟩ := List.mem_flatten.mp hmem
    obtain ⟨w, hw, rfl⟩ := List.mem_map.mp hbatch
    rw [List.mem_filter] at hw
    exact ⟨w, hw.1, hw.2, List.mem_filterMap.mpr ⟨e, List.mem_filter.mpr ⟨hmem, htable⟩, hrow⟩⟩

/-- The trail of tables that start empty. -/
theorem mem_trail_iff (hall : AllWritten writes) (r : SfRow) :
    r ∈ applyWrites P writes (fun _ => []) sfHistory ↔
      r ∈ historyImages P sfHistory (writtenTo pgTable writes) := by
  rw [mem_history_iff hevents hmap hall]
  simp

end AllWritten

/-- Flushes that succeed write what they attempt. -/
theorem CompletedFlushes.allWritten {writes : List (List ChangeEvent × Attempt)}
    (h : CompletedFlushes writes) : AllWritten writes := by
  induction h with
  | nil => exact fun w hw => absurd hw List.not_mem_nil
  | flush h batch hfailed ha ih =>
    intro w hw e he
    rw [writtenBatches_append, writtenBatches_completed batch hfailed ha, List.flatten_append,
      List.flatten_singleton, List.mem_append]
    rcases List.mem_append.mp hw with hw | hw
    · exact Or.inl (ih w hw e he)
    · obtain ⟨a, -, rfl⟩ := List.mem_map.mp hw
      exact Or.inr he

/-! ### What has been attempted -/

/-- Every event of an attempt has been written or is in the buffer. -/
def Attempted (writes : List (List ChangeEvent × Attempt)) (buffer : List ChangeEvent) : Prop :=
  ∀ w ∈ writes, ∀ e ∈ w.1, e ∈ (writtenBatches writes).flatten ++ buffer

theorem Attempted.allWritten {writes : List (List ChangeEvent × Attempt)} (h : Attempted writes []) :
    AllWritten writes := by
  intro w hw e he
  have hmem := h w hw e he
  rwa [List.append_nil] at hmem

theorem batch_of_flush {cfg : Config} (hretries : 1 ≤ cfg.maxRetries) (sink : SnowflakeSink)
    (env : CallEnv) : ∀ w ∈ (sink.flush cfg env).writes, w.1 = sink.buffer := by
  intro w hw
  by_cases hempty : sink.buffer = []
  · rw [sink.flush_empty cfg env hempty] at hw
    cases hw
  · rcases sink.flush_spec cfg env hretries hempty with ⟨failed, a, -, -, h⟩ | ⟨failed, -, h⟩
    · rw [h] at hw
      obtain ⟨a, -, rfl⟩ := List.mem_map.mp hw
      rfl
    · rw [h] at hw
      obtain ⟨a, -, rfl⟩ := List.mem_map.mp hw
      rfl

/-- The batch of an attempt is what the call found in the buffer and what it published. -/
theorem batch_of_perform {cfg : Config} (hretries : 1 ≤ cfg.maxRetries) (sink : SnowflakeSink)
    (c : SinkCall) : ∀ w ∈ (c.perform cfg sink).writes,
      w.1 ⊆ sink.buffer ++ replicated (publishedBy [c]) := by
  intro w hw
  cases c with
  | flush env =>
    rw [batch_of_flush hretries sink env w hw]
    exact List.subset_append_left _ _
  | publish env event =>
    rw [SinkCall.perform] at hw
    by_cases hmapped : IsMapped event.table
    · rcases SnowflakeSink.publish_mapped cfg sink env hmapped with h | ⟨h, -⟩
      · rw [h] at hw
        rw [batch_of_flush hretries _ env w hw, show publishedBy [.publish env event] = [event] from rfl,
          replicated_mapped hmapped]
        exact List.Subset.refl _
      · rw [h] at hw
        cases hw
    · rw [SnowflakeSink.publish_unmapped _ _ _ hmapped] at hw
      cases hw

/-- A call keeps it so. -/
theorem Attempted.call {writes : List (List ChangeEvent × Attempt)} {sink : SnowflakeSink} {cfg : Config}
    (h : Attempted writes sink.buffer) (hretries : 1 ≤ cfg.maxRetries) (c : SinkCall) :
    Attempted (writes ++ (c.perform cfg sink).writes) (c.perform cfg sink).sink.buffer := by
  intro w hw e he
  rw [writtenBatches_append, List.flatten_append, List.append_assoc, c.conserves hretries]
  rcases List.mem_append.mp hw with hw | hw
  · rw [← List.append_assoc]
    exact List.mem_append_left _ (h w hw e he)
  · exact List.mem_append_right _ (batch_of_perform hretries sink c w hw he)

/-! ### Runs of the sink -/

namespace SinkRun

/-- The published events that are changes of a table, as they are written. -/
abbrev publishedTo (pgTable : String) (calls : List SinkCall) : List ChangeEvent :=
  (replicated (publishedBy calls)).filter fun e => normalizePgTable e.table = pgTable

variable {cfg : Config}

/-- What has been attempted has been written or is in the buffer. -/
theorem run_attempted (hretries : 1 ≤ cfg.maxRetries) (start : ℚ) (calls : List SinkCall) :
    Attempted (run cfg start calls).writes (run cfg start calls).sink.buffer := by
  induction calls using List.reverseRecOn with
  | nil => exact fun w hw => absurd hw List.not_mem_nil
  | append_singleton calls c ih =>
    rw [run_snoc]
    exact ih.call hretries c

/-- A run in which no flush uses up its attempts. -/
theorem completedFlushes (hretries : 1 ≤ cfg.maxRetries) (start : ℚ) {calls : List SinkCall}
    (h : ∀ c ∈ calls, ¬ SnowflakeSink.AllAttemptsFail cfg c.env) :
    CompletedFlushes (run cfg start calls).writes := by
  induction calls using List.reverseRecOn with
  | nil => exact .nil
  | append_singleton calls c ih =>
    rw [run_snoc]
    exact (ih fun c hc => h c (List.mem_append_left _ hc)).call hretries c (h c (by simp))

/-- **When the buffer is empty everything attempted has been written**, flushes that used up their
attempts included. -/
theorem run_allWritten (hretries : 1 ≤ cfg.maxRetries) (start : ℚ) {calls : List SinkCall}
    (hempty : (run cfg start calls).sink.buffer = []) : AllWritten (run cfg start calls).writes := by
  have hattempted := run_attempted hretries start calls
  rw [hempty] at hattempted
  exact hattempted.allWritten

/-- It is what has been published. -/
theorem written_eq_replicated (hretries : 1 ≤ cfg.maxRetries) (start : ℚ) {calls : List SinkCall}
    (hempty : (run cfg start calls).sink.buffer = []) :
    (writtenBatches (run cfg start calls).writes).flatten = replicated (publishedBy calls) := by
  have hconserves := run_conserves hretries start calls
  rwa [hempty, List.append_nil] at hconserves

theorem writtenTo_eq_publishedTo (hretries : 1 ≤ cfg.maxRetries) (start : ℚ) {calls : List SinkCall}
    (hempty : (run cfg start calls).sink.buffer = []) (pgTable : String) :
    writtenTo pgTable (run cfg start calls).writes = publishedTo pgTable calls :=
  congrArg _ (written_eq_replicated hretries start hempty)

end SinkRun

/-! ### The audit columns -/

/-- `_CDC_LSN` as the history table holds it. -/
def lsnValue (P : Platform) (sfHistory : String) (lsn : ℕ) : PyVal :=
  boundValue P sfHistory "_CDC_LSN" (.int lsn)

/-- `_CDC_OP` as the history table holds it. -/
def opValue (P : Platform) (sfHistory : String) (op : Op) : PyVal :=
  boundValue P sfHistory "_CDC_OP" (.str (opLabel op))

/-- The columns of a history table as `sql/snowflake_setup.sql` declares them: those of the table have
the types they have there, `_CDC_LSN` is a `NUMBER(20,0)`, which holds and orders the 64-bit numbers,
and `_CDC_OP` a `CHAR(1)`, which tells the labels apart. -/
structure HistorySchema (P : Platform) (sfCurrent sfHistory : String) : Prop where
  types : ∀ c v, c ∉ auditColumns → P.sqlValue sfHistory c v = P.sqlValue sfCurrent c v
  lsn : ∀ m n : ℕ, m < 2 ^ 64 → n < 2 ^ 64 →
    (P.sortsBefore (lsnValue P sfHistory m) (lsnValue P sfHistory n) ↔ m < n)
  op : ∀ op : Op, opValue P sfHistory op = opValue P sfHistory .d ↔ op = .d

theorem HistorySchema.lsn_inj {P : Platform} {sfCurrent sfHistory : String}
    (h : HistorySchema P sfCurrent sfHistory) {m n : ℕ} (hm : m < 2 ^ 64) (hn : n < 2 ^ 64)
    (heq : lsnValue P sfHistory m = lsnValue P sfHistory n) : m = n := by
  have hirrefl := P.sortsBefore_irrefl (lsnValue P sfHistory n)
  have hlt := h.lsn m n hm hn
  have hgt := h.lsn n m hn hm
  rw [heq] at hlt hgt
  have hnlt : ¬ m < n := fun hlt' => hirrefl (hlt.mpr hlt')
  have hngt : ¬ n < m := fun hgt' => hirrefl (hgt.mpr hgt')
  omega

/-- The history row of an event that has an image. -/
def trailRow (P : Platform) (sfHistory : String) (e : ChangeEvent) : SfRow :=
  historyImage P sfHistory e (imageOf e)

theorem trailRow_lsn (P : Platform) (sfHistory : String) (e : ChangeEvent) :
    trailRow P sfHistory e "_CDC_LSN" = lsnValue P sfHistory e.lsn := by
  rw [trailRow, historyImage, if_neg (by decide), if_pos rfl, lsnValue]

theorem trailRow_op (P : Platform) (sfHistory : String) (e : ChangeEvent) :
    trailRow P sfHistory e "_CDC_OP" = opValue P sfHistory e.op := by
  rw [trailRow, historyImage, if_neg (by decide), if_neg (by decide), if_pos rfl, opValue]

theorem historyImages_eq_map {P : Platform} {pgTable sfCurrent : String} {columns : List String}
    {events : List ChangeEvent} (h : ∀ e ∈ events, e.OfTable P pgTable sfCurrent columns)
    (sfHistory : String) : historyImages P sfHistory events = events.map (trailRow P sfHistory) := by
  rw [historyImages, ← List.filterMap_eq_map]
  apply List.filterMap_congr
  intro e he
  obtain ⟨row, himage, -⟩ := (h e he).image
  rw [himage, Option.map_some, Function.comp_apply, trailRow, imageOf_eq himage]

/-! ### A sample -/

/-- A platform whose columns hold numbers as numbers. -/
def Platform.numeric : Platform where
  upperChar := Platform.ascii.upperChar
  upperChar_ascii := Platform.ascii.upperChar_ascii
  tsMs := Platform.ascii.tsMs
  tsText := Platform.ascii.tsText
  parseJson := Platform.ascii.parseJson
  parseJson_null := rfl
  sqlValue _ _ v := v
  sqlValue_eq_none _ _ _ := Iff.rfl
  sortsBefore v w := ∃ m n : ℤ, v = .int m ∧ w = .int n ∧ m < n
  sortsBefore_irrefl := by
    rintro v ⟨m, n, rfl, hn, hlt⟩
    cases hn
    exact lt_irrefl m hlt

theorem historySchema_numeric : HistorySchema .numeric "CUSTOMER_DEVICES" "CUSTOMER_DEVICES_HISTORY" where
  types _ _ _ := rfl
  lsn m n _ _ := by
    have hvalue : ∀ n : ℕ, lsnValue .numeric "CUSTOMER_DEVICES_HISTORY" n = .int n := by
      intro n
      rw [lsnValue, boundValue, jsonbSfCols_eq, if_neg (by decide)]
      rfl
    rw [hvalue, hvalue]
    constructor
    · rintro ⟨m', n', hm, hn, hlt⟩
      cases hm
      cases hn
      exact Int.ofNat_lt.mp hlt
    · exact fun hlt => ⟨m, n, rfl, rfl, Int.ofNat_lt.mpr hlt⟩
  op op := by
    have hvalue : ∀ op, opValue .numeric "CUSTOMER_DEVICES_HISTORY" op = .str (opLabel op) := by
      intro op
      rw [opValue, boundValue, jsonbSfCols_eq, if_neg (by decide)]
      rfl
    rw [hvalue, hvalue]
    cases op <;> decide

theorem deviceEvent_ofMapped (op : Op) (id label : String) (lsn commitLsn : ℕ) :
    (deviceEvent op (deviceRow id label) lsn commitLsn).OfMapped .numeric fun _ => ["id", "label"] where
  mapped := by
    show normalizePgTable "customer_devices" ∈ tableMap.keys
    decide
  ofTable target htarget := by
    have hmap : tableMap.get? (normalizePgTable "customer_devices") =
        some ("CUSTOMER_DEVICES", "CUSTOMER_DEVICES_HISTORY") := by decide
    rw [show target = ("CUSTOMER_DEVICES", "CUSTOMER_DEVICES_HISTORY") from
      Option.some.inj (htarget.symm.trans hmap)]
    have hascii := deviceEvent_ofTable op id label lsn commitLsn
    exact ⟨rfl, hascii.image⟩

/-- Two devices come, and an attempt to write them fails behind the history INSERT. -/
def retriedCalls : List SinkCall :=
  [.publish (sampleEnv true) (deviceEvent .c (deviceRow "1" "tv") 10 12),
    .publish (sampleEnv true) (deviceEvent .c (deviceRow "2" "tv") 11 12), .flush secondAttemptEnv]

/-- With one attempt for a flush, it is the next flush that succeeds. -/
def retriedLater : List SinkCall := retriedCalls ++ [.flush (sampleEnv true)]

theorem empty_retried : (SinkRun.run ⟨500, 10, 2⟩ 0 retriedCalls).sink.buffer = [] := by
  decide +kernel

theorem empty_later : (SinkRun.run ⟨500, 10, 1⟩ 0 retriedLater).sink.buffer = [] := by
  decide +kernel

theorem published_later : publishedBy retriedLater = publishedBy retriedCalls := rfl

/-- Both publish the same two events. -/
theorem replicated_retried {calls : List SinkCall} (h : publishedBy calls = publishedBy retriedCalls) :
    replicated (publishedBy calls) =
      [deviceEvent .c (deviceRow "1" "tv") 10 12, deviceEvent .c (deviceRow "2" "tv") 11 12] := by
  rw [h]
  decide

section Retried

variable {calls : List SinkCall} (h : publishedBy calls = publishedBy retriedCalls)

include h

theorem publishedTo_retried : SinkRun.publishedTo "customer_devices" calls =
    [deviceEvent .c (deviceRow "1" "tv") 10 12, deviceEvent .c (deviceRow "2" "tv") 11 12] := by
  rw [SinkRun.publishedTo, replicated_retried h]
  decide

theorem ofMapped_retried :
    ∀ e ∈ replicated (publishedBy calls), e.OfMapped .numeric fun _ => ["id", "label"] := by
  rw [replicated_retried h]
  simp [deviceEvent_ofMapped]

theorem size_retried : ∀ e ∈ SinkRun.publishedTo "customer_devices" calls, e.lsn < 2 ^ 64 := by
  rw [publishedTo_retried h]
  simp [deviceEvent]

theorem touchedOnce_retried : ((SinkRun.publishedTo "customer_devices" calls).map
    (changeKey .numeric "CUSTOMER_DEVICES")).Nodup := by
  rw [publishedTo_retried h]
  decide

end Retried

theorem mapped_devices : tableMap.get? "customer_devices" =
    some ("CUSTOMER_DEVICES", "CUSTOMER_DEVICES_HISTORY") := by
  decide

/-! ### Every event once -/

/-- `QUALIFY ROW_NUMBER() OVER (PARTITION BY _CDC_LSN ORDER BY _LOADED_AT) = 1`.  The rows of one LSN
may have been loaded in any order. -/
def dedupHistory (o : RowOrder) (history : Table) : Table :=
  qualifyFirst (fun r => r "_CDC_LSN") o history

/-- **The query returns the image of every event once, and nothing else, exactly when no two events of
the table have the same LSN**: for any run of the sink that has written everything in the end, however
many attempts failed, and wherever, and whether or not the flushes that made them succeeded. -/
theorem history_dedup_iff {P : Platform} {columnsOf : String → List String} {cfg : Config}
    (hretries : 1 ≤ cfg.maxRetries) (start : ℚ) {calls : List SinkCall}
    (hempty : (SinkRun.run cfg start calls).sink.buffer = [])
    (hevents : ∀ e ∈ replicated (publishedBy calls), e.OfMapped P columnsOf)
    {pgTable sfCurrent sfHistory : String}
    (hmap : tableMap.get? pgTable = some (sfCurrent, sfHistory))
    (hschema : HistorySchema P sfCurrent sfHistory)
    (hsize : ∀ e ∈ SinkRun.publishedTo pgTable calls, e.lsn < 2 ^ 64) (o : RowOrder) :
    (dedupHistory o
        (applyWrites P (SinkRun.run cfg start calls).writes (fun _ => []) sfHistory)).Perm
        (historyImages P sfHistory (SinkRun.publishedTo pgTable calls)) ↔
      ((SinkRun.publishedTo pgTable calls).map ChangeEvent.lsn).Nodup := by
  rw [← SinkRun.written_eq_replicated hretries start hempty] at hevents
  rw [← SinkRun.writtenTo_eq_publishedTo hretries start hempty] at hsize ⊢
  rw [dedupHistory,
    qualifyFirst_perm_iff _ o (mem_trail_iff hevents hmap (SinkRun.run_allWritten hretries start hempty)),
    historyImages_eq_map (ofTable_of_written hevents hmap), List.map_map]
  have hlsn : (fun r : SfRow => r "_CDC_LSN") ∘ trailRow P sfHistory =
      lsnValue P sfHistory ∘ ChangeEvent.lsn := by
    funext e
    exact trailRow_lsn P sfHistory e
  rw [hlsn, ← List.map_map]
  constructor
  · exact List.Nodup.of_map _
  · refine fun hn => hn.map_on fun m hm n hn heq => ?_
    obtain ⟨e, he, rfl⟩ := List.mem_map.mp hm
    obtain ⟨e', he', rfl⟩ := List.mem_map.mp hn
    exact hschema.lsn_inj (hsize e he) (hsize e' he') heq

/-- The two devices, although each has two history rows and a flush has raised. -/
theorem history_dedup_devices :
    (dedupHistory (lastFirst 0) (applyWrites .numeric (SinkRun.run ⟨500, 10, 1⟩ 0 retriedLater).writes
        (fun _ => []) "CUSTOMER_DEVICES_HISTORY")).Perm
      (historyImages .numeric "CUSTOMER_DEVICES_HISTORY"
        (SinkRun.publishedTo "customer_devices" retriedLater)) :=
  (history_dedup_iff (by decide) 0 empty_later (ofMapped_retried published_later) mapped_devices
    historySchema_numeric (size_retried published_later) (lastFirst 0)).mpr
    (by rw [publishedTo_retried published_later]; decide)

/-! ### The states of a table -/

/-- What the last change of a key leaves of it. -/
def leftBy (P : Platform) (sfTable : String) (e : ChangeEvent) : List SfRow :=
  if e.isUpsert then [imageRow P sfTable (imageOf e)] else []

section Table

variable {P : Platform} {pgTable sfTable sfHistory : String} {columns : List String}
  {events : List ChangeEvent} (h : ∀ e ∈ events, e.OfTable P pgTable sfTable columns)

include h

/-- Changes of one key that has no row yet: the last one decides. -/
theorem runOps_ownOp_of_empty :
    runOps .none (events.map (ownOp P sfTable)) [] =
      (events.getLast?.map (leftBy P sfTable)).getD [] := by
  induction events using List.reverseRecOn with
  | nil => rfl
  | append_singleton earlier e ih =>
      obtain ⟨row, himage, hcolumns, -⟩ := (h e (by simp)).image
      rw [List.map_append, runOps_append, ih fun e he => h e (List.mem_append_left _ he),
        List.getLast?_concat, Option.map_some, Option.getD_some, leftBy, imageOf_eq himage]
      cases hup : e.isUpsert with
      | false =>
          show runOps .none [ownOp P sfTable e] _ = []
          rw [ownOp_of_delete himage hup]
          rfl
      | true =>
          show runOps .none [ownOp P sfTable e] _ = [imageRow P sfTable row]
          rw [ownOp_of_upsert himage hup]
          cases hlast : earlier.getLast? with
          | none =>
              show [overlay (assignment P sfTable row) fun _ => .none] = _
              rw [overlay_assignment fun _ _ => rfl]
          | some e' =>
              obtain ⟨row', himage', hcolumns', -⟩ :=
                (h e' (List.mem_append_left _ (List.mem_of_getLast? hlast))).image
              -- the row that is there has the columns of the image
              have hrest : ∀ c, c ∉ (rowToSf P row).keys → imageRow P sfTable row' c = .none := by
                intro c hc
                apply imageRow_of_notMem
                rwa [mem_keys_rowToSf, hcolumns', ← hcolumns, ← mem_keys_rowToSf]
              rw [Option.map_some, Option.getD_some, leftBy, imageOf_eq himage']
              split
              · show [overlay (assignment P sfTable row) (imageRow P sfTable row')] = _
                rw [overlay_assignment hrest]
              · show [overlay (assignment P sfTable row) fun _ => .none] = _
                rw [overlay_assignment fun _ _ => rfl]

/-- **Changes of an empty table at a key.** -/
theorem runOps_changes_of_empty (k : List PyVal) :
    runOps .none (events.map (changeOp P sfTable k)) [] =
      ((events.filter fun e => changeKey P sfTable e = k).getLast?.map (leftBy P sfTable)).getD [] := by
  rw [runOps_changeOp]
  exact runOps_ownOp_of_empty fun e he => h e (List.mem_of_mem_filter he)

end Table

/-- A history row without the audit columns. -/
def withoutAudit (r : SfRow) : SfRow := fun c => if c ∈ auditColumns then .none else r c

section Rows

variable {P : Platform} {pgTable sfCurrent sfHistory : String} {columns : List String}
  (hmap : tableMap.get? pgTable = some (sfCurrent, sfHistory))
  (hschema : HistorySchema P sfCurrent sfHistory)

include hmap

theorem pkOf_not_audit : ∀ c ∈ pkOf sfCurrent, c ∉ auditColumns := by
  obtain ⟨-, rfl, -⟩ | ⟨-, rfl, -⟩ := tableMap_cases hmap
  · decide
  · decide

theorem keyOf_withoutAudit (r : SfRow) :
    keyOf (pkOf sfCurrent) (withoutAudit r) = keyOf (pkOf sfCurrent) r := by
  rw [keyOf, keyOf]
  apply List.map_congr_left
  intro c hc
  rw [withoutAudit, if_neg (pkOf_not_audit hmap c hc)]

omit hmap in
include hschema in
/-- Outside the audit columns a history row is the row of the current-state table. -/
theorem trailRow_eq_imageRow (e : ChangeEvent) {c : String} (hc : c ∉ auditColumns) :
    trailRow P sfHistory e c = imageRow P sfCurrent (imageOf e) c := by
  rw [auditColumns, List.mem_cons, List.mem_cons, List.mem_singleton, not_or, not_or] at hc
  rw [trailRow, historyImage, if_neg hc.1, if_neg hc.2.1, if_neg hc.2.2, imageRow, imageRow, boundValue,
    boundValue, hschema.types c _ (by simpa [auditColumns] using hc)]

include hschema

theorem keyOf_trailRow {e : ChangeEvent} (h : e.OfTable P pgTable sfCurrent columns) :
    keyOf (pkOf sfCurrent) (trailRow P sfHistory e) = changeKey P sfCurrent e := by
  rw [changeKey_eq h.keyedIn, keyOf, keyOf]
  apply List.map_congr_left
  intro c hc
  exact trailRow_eq_imageRow hschema e (pkOf_not_audit hmap c hc)

omit hmap in
theorem withoutAudit_trailRow {e : ChangeEvent} (h : e.OfTable P pgTable sfCurrent columns)
    (hplain : ∀ c ∈ columns, pgColToSf P c ∉ auditColumns) :
    withoutAudit (trailRow P sfHistory e) = imageRow P sfCurrent (imageOf e) := by
  funext c
  rw [withoutAudit]
  split
  · next hc =>
      obtain ⟨row, himage, hcolumns, -⟩ := h.image
      rw [imageOf_eq himage, imageRow_of_notMem]
      rw [mem_keys_rowToSf, hcolumns]
      rintro ⟨pgKey, hmem, rfl⟩
      exact hplain pgKey hmem hc
  · next hc => exact trailRow_eq_imageRow hschema e hc

end Rows

/-- `ORDER BY _CDC_LSN DESC`. -/
def LaterFirst (P : Platform) (x y : SfRow) : Prop := P.sortsBefore (y "_CDC_LSN") (x "_CDC_LSN")

open Classical in
/-- `WHERE _CDC_LSN <= lsn`. -/
noncomputable def upToLsn (P : Platform) (sfHistory : String) (lsn : ℕ) (history : Table) : Table :=
  history.filter fun r => ¬ P.sortsBefore (lsnValue P sfHistory lsn) (r "_CDC_LSN")

/-- The state of a table as its history tells it: of the rows up to an LSN the last one of every key,
`QUALIFY ROW_NUMBER() OVER (PARTITION BY … ORDER BY _CDC_LSN DESC) = 1`, unless it is a deletion. -/
noncomputable def stateAsOf (P : Platform) (sfCurrent sfHistory : String) (o : RowOrder) (lsn : ℕ)
    (history : Table) : Table :=
  ((qualifyFirst (keyOf (pkOf sfCurrent)) o (upToLsn P sfHistory lsn history)).filter fun r =>
    r "_CDC_OP" ≠ opValue P sfHistory .d).map withoutAudit

/-- The changes of one key come with ascending LSNs: PostgreSQL lets a transaction change a row only when
the one that changed it before is over.  Changes of different keys may come in any order of their LSNs. -/
def LsnsAscend (P : Platform) (sfCurrent : String) (events : List ChangeEvent) : Prop :=
  events.Pairwise fun e e' => changeKey P sfCurrent e = changeKey P sfCurrent e' → e.lsn < e'.lsn

instance (P : Platform) (sfCurrent : String) (events : List ChangeEvent) :
    Decidable (LsnsAscend P sfCurrent events) :=
  inferInstanceAs (Decidable (List.Pairwise _ _))

section Replays

variable {P : Platform} {pgTable sfCurrent sfHistory : String} {columns : List String}
  (hmap : tableMap.get? pgTable = some (sfCurrent, sfHistory))
  (hschema : HistorySchema P sfCurrent sfHistory) {events : List ChangeEvent}
  (h : ∀ e ∈ events, e.OfTable P pgTable sfCurrent columns)
  (hsize : ∀ e ∈ events, e.lsn < 2 ^ 64) {history : Table}
  (hmem : ∀ r, r ∈ history ↔ r ∈ historyImages P sfHistory events) {lsn : ℕ} (hlsn : lsn < 2 ^ 64)

include hschema h hsize hmem hlsn

theorem mem_upToLsn (r : SfRow) : r ∈ upToLsn P sfHistory lsn history ↔
    ∃ e ∈ events.filter (·.lsn ≤ lsn), trailRow P sfHistory e = r := by
  rw [upToLsn, List.mem_filter, hmem, historyImages_eq_map h, List.mem_map]
  simp only [decide_eq_true_eq]
  have hle : ∀ e ∈ events, (¬ P.sortsBefore (lsnValue P sfHistory lsn)
      (trailRow P sfHistory e "_CDC_LSN") ↔ e.lsn ≤ lsn) := by
    intro e he
    rw [trailRow_lsn, hschema.lsn lsn e.lsn hlsn (hsize e he), not_lt]
  constructor
  · rintro ⟨⟨e, he, rfl⟩, hnot⟩
    exact ⟨e, List.mem_filter.mpr ⟨he, decide_eq_true ((hle e he).mp hnot)⟩, rfl⟩
  · rintro ⟨e, he, rfl⟩
    rw [List.mem_filter, decide_eq_true_eq] at he
    exact ⟨⟨e, he.1, rfl⟩, (hle e he.1).mpr he.2⟩

include hmap

/-- The survivor of a key is the row of its last change. -/
theorem find?_latest (hwal : LsnsAscend P sfCurrent events) {o : RowOrder}
    (ho : o.Respects (keyOf (pkOf sfCurrent)) (LaterFirst P) (upToLsn P sfHistory lsn history))
    (k : List PyVal) :
    (qualifyFirst (keyOf (pkOf sfCurrent)) o (upToLsn P sfHistory lsn history)).find?
        (fun r => keyOf (pkOf sfCurrent) r = k) =
      ((events.filter (·.lsn ≤ lsn)).filter fun e => changeKey P sfCurrent e = k).getLast?.map
        (trailRow P sfHistory) := by
  have hrows := mem_upToLsn hschema h hsize hmem hlsn
  have htable : ∀ e ∈ events.filter (·.lsn ≤ lsn), e.OfTable P pgTable sfCurrent columns :=
    fun e he => h e (List.mem_of_mem_filter he)
  cases hlast : ((events.filter (·.lsn ≤ lsn)).filter
      fun e => changeKey P sfCurrent e = k).getLast? with
  | none =>
      apply find?_qualifyFirst_eq_none
      intro r hr hkey
      obtain ⟨e, he, rfl⟩ := (hrows r).mp hr
      rw [keyOf_trailRow hmap hschema (htable e he)] at hkey
      have hmem' : e ∈ (events.filter (·.lsn ≤ lsn)).filter fun e => changeKey P sfCurrent e = k :=
        List.mem_filter.mpr ⟨he, decide_eq_true hkey⟩
      rw [List.getLast?_eq_none_iff.mp hlast] at hmem'
      cases hmem'
  | some e =>
      have hkeyed := List.mem_of_getLast? hlast
      rw [List.mem_filter, decide_eq_true_eq] at hkeyed
      have hkey := keyOf_trailRow hmap hschema (htable e hkeyed.1)
      obtain ⟨earlier, hsplit⟩ := List.getLast?_eq_some_iff.mp hlast
      have hordered := (hwal.filter (·.lsn ≤ lsn)).filter fun e => changeKey P sfCurrent e = k
      rw [hsplit, List.pairwise_append] at hordered
      have hfind := find?_qualifyFirst_of_before (keyOf (pkOf sfCurrent)) o ho
        ((hrows _).mpr ⟨e, hkeyed.1, rfl⟩) ?_
      · rwa [hkey, hkeyed.2] at hfind
      · intro r hr hrkey
        obtain ⟨e', he', rfl⟩ := (hrows r).mp hr
        rw [keyOf_trailRow hmap hschema (htable e' he'), hkey, hkeyed.2] at hrkey
        have hmem' : e' ∈ earlier ++ [e] := by
          rw [← hsplit]
          exact List.mem_filter.mpr ⟨he', decide_eq_true hrkey⟩
        rcases List.mem_append.mp hmem' with hbefore | hsame
        · refine Or.inr ?_
          rw [LaterFirst, trailRow_lsn, trailRow_lsn,
            hschema.lsn _ _ (hsize e' (List.mem_of_mem_filter he')) (hsize e (List.mem_of_mem_filter hkeyed.1))]
          exact hordered.2.2 e' hbefore e (List.mem_singleton_self e) (hrkey.trans hkeyed.2.symm)
        · rw [List.mem_singleton.mp hsame]
          exact Or.inl rfl

/-- **A trail replays the changes**, whatever is repeated in it and in whatever order it stands. -/
theorem stateAsOf_perm (hplain : ∀ c ∈ columns, pgColToSf P c ∉ auditColumns)
    (hwal : LsnsAscend P sfCurrent events) {o : RowOrder}
    (ho : o.Respects (keyOf (pkOf sfCurrent)) (LaterFirst P) (upToLsn P sfHistory lsn history)) :
    (stateAsOf P sfCurrent sfHistory o lsn history).Perm
      (applyChanges P sfCurrent (events.filter (·.lsn ≤ lsn)) []) := by
  have htable : ∀ e ∈ events.filter (·.lsn ≤ lsn), e.OfTable P pgTable sfCurrent columns :=
    fun e he => h e (List.mem_of_mem_filter he)
  apply perm_of_rowsAt (keyOf (pkOf sfCurrent))
  intro k
  apply List.Perm.of_eq
  rw [rowsAt_applyChanges htable, show rowsAt (keyOf (pkOf sfCurrent)) k [] = ([] : Table) from rfl,
    runOps_changes_of_empty htable, stateAsOf, rowsAt_map _ (keyOf_withoutAudit hmap), rowsAt,
    List.filter_comm]
  rw [show List.filter (fun r => decide (keyOf (pkOf sfCurrent) r = k)) _ = _ from
    rowsAt_of_uniqueKeys (keyOf (pkOf sfCurrent)) (nodup_keys_qualifyFirst _ o _) k,
    find?_latest hmap hschema h hsize hmem hlsn hwal ho k]
  cases hlast : ((events.filter (·.lsn ≤ lsn)).filter
      fun e => changeKey P sfCurrent e = k).getLast? with
  | none => rfl
  | some e =>
      have he := List.mem_of_mem_filter (List.mem_of_getLast? hlast)
      have hop : trailRow P sfHistory e "_CDC_OP" ≠ opValue P sfHistory .d ↔ e.isUpsert = true := by
        rw [trailRow_op, Ne, hschema.op, isUpsert_iff]
      rw [Option.map_some, Option.toList_some, Option.map_some, Option.getD_some, leftBy]
      by_cases hup : e.isUpsert = true
      · rw [List.filter_cons_of_pos (by simpa using hop.mpr hup), List.filter_nil, if_pos hup,
          List.map_singleton, withoutAudit_trailRow hschema (htable e he) hplain]
      · rw [List.filter_cons_of_neg (by simpa using fun hne => hup (hop.mp hne)), List.filter_nil,
          if_neg hup, List.map_nil]

/-- Where no key is touched twice there is nothing to order. -/
theorem respects_of_touchedOnce (hn : (events.map (changeKey P sfCurrent)).Nodup)
    (o : RowOrder) :
    o.Respects (keyOf (pkOf sfCurrent)) (LaterFirst P) (upToLsn P sfHistory lsn history) := by
  have hrows := mem_upToLsn hschema h hsize hmem hlsn
  intro i j a b ha hb hkey hbefore
  obtain ⟨e, he, rfl⟩ := (hrows a).mp (List.mem_of_getElem? ha)
  obtain ⟨e', he', rfl⟩ := (hrows b).mp (List.mem_of_getElem? hb)
  rw [List.mem_filter] at he he'
  rw [keyOf_trailRow hmap hschema (h e he.1), keyOf_trailRow hmap hschema (h e' he'.1)] at hkey
  rw [List.inj_on_of_nodup_map hn he.1 he'.1 hkey] at hbefore
  exact absurd hbefore (P.sortsBefore_irrefl _)

end Replays

/-! ### Behind a run of the sink -/

section Trail

variable {P : Platform} {columnsOf : String → List String} {cfg : Config}
  (hretries : 1 ≤ cfg.maxRetries) (start : ℚ) {calls : List SinkCall}
  (hevents : ∀ e ∈ replicated (publishedBy calls), e.OfMapped P columnsOf)
  {pgTable sfCurrent sfHistory : String}
  (hmap : tableMap.get? pgTable = some (sfCurrent, sfHistory))
  (hschema : HistorySchema P sfCurrent sfHistory)
  (hplain : ∀ c ∈ columnsOf pgTable, pgColToSf P c ∉ auditColumns)
  (hwal : LsnsAscend P sfCurrent (SinkRun.publishedTo pgTable calls))
  (hsize : ∀ e ∈ SinkRun.publishedTo pgTable calls, e.lsn < 2 ^ 64)

include hretries hevents hmap hschema hplain hwal hsize

/-- **The history table holds every state of its table.**  A run of the sink, whatever its attempts left
behind and whether or not its flushes succeeded, has written everything in the end.  Then for every LSN
the rows up to there tell the state that the changes up to there, one at a time, make of the empty
table. -/
theorem history_replays (hempty : (SinkRun.run cfg start calls).sink.buffer = []) {lsn : ℕ}
    (hlsn : lsn < 2 ^ 64) {o : RowOrder}
    (ho : o.Respects (keyOf (pkOf sfCurrent)) (LaterFirst P) (upToLsn P sfHistory lsn
      (applyWrites P (SinkRun.run cfg start calls).writes (fun _ => []) sfHistory))) :
    (stateAsOf P sfCurrent sfHistory o lsn
        (applyWrites P (SinkRun.run cfg start calls).writes (fun _ => []) sfHistory)).Perm
      (applyChanges P sfCurrent ((SinkRun.publishedTo pgTable calls).filter (·.lsn ≤ lsn)) []) := by
  rw [← SinkRun.written_eq_replicated hretries start hempty] at hevents
  rw [← SinkRun.writtenTo_eq_publishedTo hretries start hempty] at hwal hsize ⊢
  exact stateAsOf_perm hmap hschema (ofTable_of_written hevents hmap) hsize
    (mem_trail_iff hevents hmap (SinkRun.run_allWritten hretries start hempty)) hlsn hplain hwal ho

/-- **The current-state table is a view of the history table**, when no flush uses up its attempts and no
batch touches a key of it twice: the last history row of every key, unless it is a deletion. -/
theorem current_from_history (hcalls : ∀ c ∈ calls, ¬ SnowflakeSink.AllAttemptsFail cfg c.env)
    (honce : ∀ batch ∈ writtenBatches (SinkRun.run cfg start calls).writes,
      TouchedOnce P pgTable sfCurrent batch) {o : RowOrder}
    (ho : o.Respects (keyOf (pkOf sfCurrent)) (LaterFirst P) (upToLsn P sfHistory (2 ^ 64 - 1)
      (applyWrites P (SinkRun.run cfg start calls).writes (fun _ => []) sfHistory))) :
    (applyWrites P (SinkRun.run cfg start calls).writes (fun _ => []) sfCurrent).Perm
      (stateAsOf P sfCurrent sfHistory o (2 ^ 64 - 1)
        (applyWrites P (SinkRun.run cfg start calls).writes (fun _ => []) sfHistory)) := by
  have hflushes := SinkRun.completedFlushes hretries start hcalls
  -- what is written is a front part of what is published
  have hconserves := SinkRun.run_conserves hretries start calls
  have hwritten : ∀ e ∈ (writtenBatches (SinkRun.run cfg start calls).writes).flatten,
      e.OfMapped P columnsOf :=
    fun e he => hevents e (hconserves ▸ List.mem_append_left _ he)
  have hpart : (writtenTo pgTable (SinkRun.run cfg start calls).writes).Sublist
      (SinkRun.publishedTo pgTable calls) := by
    rw [SinkRun.publishedTo, ← hconserves]
    exact (List.sublist_append_left _ _).filter _
  have hstate := stateAsOf_perm hmap hschema (ofTable_of_written hwritten hmap)
    (fun e he => hsize e (hpart.subset he)) (mem_trail_iff hwritten hmap hflushes.allWritten)
    (by omega) hplain (hwal.sublist hpart) ho
  have hall : (writtenTo pgTable (SinkRun.run cfg start calls).writes).filter (·.lsn ≤ 2 ^ 64 - 1) =
      writtenTo pgTable (SinkRun.run cfg start calls).writes := by
    rw [List.filter_eq_self]
    intro e he
    have hlt := hsize e (hpart.subset he)
    rw [decide_eq_true_eq]
    omega
  rw [hall] at hstate
  exact (applyWrites_perm_changes hflushes
    (fun batch hbatch e he => hwritten e (List.mem_flatten.mpr ⟨batch, hbatch, he⟩)) hmap honce
    fun _ => []).trans hstate.symm

end Trail

/-- The rows of the two devices, in whatever order the engine numbers them. -/
theorem respects_retried {cfg : Config} (hretries : 1 ≤ cfg.maxRetries) {calls : List SinkCall}
    (hsame : publishedBy calls = publishedBy retriedCalls)
    (hempty : (SinkRun.run cfg 0 calls).sink.buffer = []) (o : RowOrder) {lsn : ℕ} (hlsn : lsn < 2 ^ 64) :
    o.Respects (keyOf (pkOf "CUSTOMER_DEVICES")) (LaterFirst .numeric)
      (upToLsn .numeric "CUSTOMER_DEVICES_HISTORY" lsn (applyWrites .numeric
        (SinkRun.run cfg 0 calls).writes (fun _ => []) "CUSTOMER_DEVICES_HISTORY")) := by
  have hevents := ofMapped_retried hsame
  have hsize := size_retried hsame
  have honce := touchedOnce_retried hsame
  rw [← SinkRun.written_eq_replicated hretries 0 hempty] at hevents
  rw [← SinkRun.writtenTo_eq_publishedTo hretries 0 hempty] at hsize honce
  exact respects_of_touchedOnce mapped_devices historySchema_numeric
    (ofTable_of_written hevents mapped_devices) hsize
    (mem_trail_iff hevents mapped_devices (SinkRun.run_allWritten hretries 0 hempty)) hlsn honce o

/-- The state when the first of the two devices had come. -/
theorem history_replays_devices :
    (stateAsOf .numeric "CUSTOMER_DEVICES" "CUSTOMER_DEVICES_HISTORY" (lastFirst 0) 10
        (applyWrites .numeric (SinkRun.run ⟨500, 10, 1⟩ 0 retriedLater).writes (fun _ => [])
          "CUSTOMER_DEVICES_HISTORY")).Perm
      (applyChanges .numeric "CUSTOMER_DEVICES"
        ((SinkRun.publishedTo "customer_devices" retriedLater).filter (·.lsn ≤ 10)) []) :=
  history_replays (by decide) 0 (ofMapped_retried published_later) mapped_devices historySchema_numeric
    (by decide) (by rw [publishedTo_retried published_later]; decide) (size_retried published_later)
    empty_later (by decide) (respects_retried (by decide) published_later empty_later _ (by decide))

theorem current_from_history_devices :
    (applyWrites .numeric (SinkRun.run ⟨500, 10, 2⟩ 0 retriedCalls).writes (fun _ => [])
        "CUSTOMER_DEVICES").Perm
      (stateAsOf .numeric "CUSTOMER_DEVICES" "CUSTOMER_DEVICES_HISTORY" (lastFirst 0) (2 ^ 64 - 1)
        (applyWrites .numeric (SinkRun.run ⟨500, 10, 2⟩ 0 retriedCalls).writes (fun _ => [])
          "CUSTOMER_DEVICES_HISTORY")) :=
  current_from_history (by decide) 0 (ofMapped_retried rfl) mapped_devices historySchema_numeric
    (by decide) (by rw [publishedTo_retried rfl]; decide) (size_retried rfl) (by decide)
    (by decide +kernel) (respects_retried (by decide) rfl empty_retried _ (by decide))

end PgSnowflakeCdc
