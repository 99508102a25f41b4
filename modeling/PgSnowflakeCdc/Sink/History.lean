import PgSnowflakeCdc.Sink.Attempts

/-!
# The history tables

A flush appends the images of its events to the history tables, each attempt anew.

* `historyImage` — the history row of an event: its image, its op label, its LSN and its timestamp;
* `sourceRows_converted_eq` — the rows that a statement makes of converted rows, with any column list;
* `insertHistory_onTable` — one history INSERT appends the images of its events, in order;
* `history_of_write` — one attempt appends them once or not at all;
* `history_at_least_once` — **a flush appends every image, in order, between once and as often as it
  makes attempts, and nothing else.**
-/

namespace PgSnowflakeCdc

open OrderedDict RowNumbering KeyedRows

/-! ### Rows -/

/-- A converted row as a table stores it. -/
def storedRow (P : Platform) (sfTable : String) (row : Row) : SfRow := fun c =>
  boundValue P sfTable c (cell row c)

/-- The history row of an event: the image, and the three audit columns. -/
def historyImage (P : Platform) (sfHistory : String) (e : ChangeEvent) (data : Row) : SfRow := fun c =>
  if c = "_CDC_TS" then boundValue P sfHistory c (.str (P.tsText e.tsMs))
  else if c = "_CDC_LSN" then boundValue P sfHistory c (.int e.lsn)
  else if c = "_CDC_OP" then boundValue P sfHistory c (.str (opLabel e.op))
  else imageRow P sfHistory data c

/-- The history rows of some events of one table: those that have an image, in order. -/
def historyImages (P : Platform) (sfHistory : String) (tblEvents : List ChangeEvent) : List SfRow :=
  tblEvents.filterMap fun e => e.image.map (historyImage P sfHistory e)

theorem cell_set (row : Row) (k c : String) (v : PyVal) :
    cell (row.set k v) c = if c = k then v else cell row c := by
  rw [cell, Dict.get?_set]
  split
  · rfl
  · rfl

/-- The dictionary that `_insert_history` builds holds the history row. -/
theorem storedRow_historyRow (P : Platform) (sfHistory : String) (e : ChangeEvent) (data : Row) :
    storedRow P sfHistory (historyRow P e data) = historyImage P sfHistory e data := by
  funext c
  rw [storedRow, historyRow, cell_set, cell_set, cell_set, historyImage, imageRow]
  split
  · rfl
  · split
    · rfl
    · split
      · rfl
      · rfl

theorem mem_keys_historyRow {P : Platform} {e : ChangeEvent} {data : Row} {c : String} :
    c ∈ (historyRow P e data).keys ↔
      c = "_CDC_TS" ∨ c = "_CDC_LSN" ∨ c = "_CDC_OP" ∨ c ∈ (rowToSf P data).keys := by
  rw [historyRow, Dict.mem_keys_set, Dict.mem_keys_set, Dict.mem_keys_set]

/-- A converted row holds nothing outside its columns. -/
theorem storedRow_of_notMem {P : Platform} {sfTable : String} {row : Row} {c : String}
    (h : c ∉ row.keys) : storedRow P sfTable row c = .none := by
  rw [storedRow, cell, Dict.get?_eq_none_iff.mpr h, Option.getD_none, boundValue_null]

/-! ### One INSERT -/

/-- **The rows a statement makes of converted rows**: what its column list leaves of each. -/
theorem sourceRows_converted_eq (P : Platform) (sfTable : String) (allCols : List String)
    (rows : List Row) :
    sourceRows P sfTable allCols (rows.map fun row => allCols.map (cell row)) =
      rows.map fun row => insertRow allCols (storedRow P sfTable row) := by
  rw [sourceRows, List.map_map]
  apply List.map_congr_left
  intro row _
  funext c
  rw [Function.comp_apply, sourceRow_map]
  rfl

/-- Nothing is lost of a row whose columns are all listed. -/
theorem insertRow_storedRow {P : Platform} {sfTable : String} {allCols : List String} {row : Row}
    (h : ∀ c ∈ row.keys, c ∈ allCols) :
    insertRow allCols (storedRow P sfTable row) = storedRow P sfTable row := by
  apply insertRow_of_listed
  intro c hc
  exact storedRow_of_notMem fun hmem => hc (h c hmem)

theorem historyImages_eq (P : Platform) (sfHistory : String) (tblEvents : List ChangeEvent) :
    historyImages P sfHistory tblEvents = (historyRows P tblEvents).map (storedRow P sfHistory) := by
  rw [historyImages, historyRows, List.map_filterMap]
  apply List.filterMap_congr
  intro e _
  rw [Option.map_map]
  cases e.image with
  | none => rfl
  | some data => rw [Option.map_some, Option.map_some, Function.comp_apply, storedRow_historyRow]

theorem mem_historyRows {P : Platform} {tblEvents : List ChangeEvent} {row : Row}
    (h : row ∈ historyRows P tblEvents) :
    ∃ e ∈ tblEvents, ∃ data, e.image = some data ∧ row = historyRow P e data := by
  obtain ⟨e, he, hrow⟩ := List.mem_filterMap.mp h
  obtain ⟨data, himage, rfl⟩ := Option.map_eq_some_iff.mp hrow
  exact ⟨e, he, data, himage, rfl⟩

/-- **The history INSERT of a group appends the images of its events, in order**, when they all have the
same columns. -/
theorem insertHistory_onTable {P : Platform} {sfHistory : String} {tblEvents : List ChangeEvent}
    {columns : List String} (hcols : ∀ e ∈ tblEvents, ∀ data ∈ e.image, data.keys = columns)
    (tie : Stmt → RowOrder) (t : Table) :
    Replay.run (fun stmt => stmt.onTable P (tie stmt)) (insertHistory P sfHistory tblEvents) t =
      t ++ historyImages P sfHistory tblEvents := by
  rw [historyImages_eq, insertHistory]
  cases hrows : historyRows P tblEvents with
  | nil => exact (List.append_nil t).symm
  | cons first rest =>
    show t ++ sourceRows P sfHistory first.keys _ = _
    rw [sourceRows_converted_eq]
    congr 1
    apply List.map_congr_left
    intro row hrow
    apply insertRow_storedRow
    -- all dictionaries list the columns of the table and the audit columns
    obtain ⟨e, he, data, himage, rfl⟩ := mem_historyRows (hrows ▸ hrow)
    obtain ⟨e', he', data', himage', rfl⟩ := mem_historyRows (hrows ▸ List.mem_cons_self)
    intro c
    rw [mem_keys_historyRow, mem_keys_historyRow, mem_keys_rowToSf, mem_keys_rowToSf,
      hcols e he data himage, hcols e' he' data' himage']
    exact id

/-! ### One attempt -/

section Batch

variable {P : Platform} {pgTable sfCurrent sfHistory : String} {batch : List ChangeEvent}
  {columns : List String} (hmap : tableMap.get? pgTable = some (sfCurrent, sfHistory))
  (hmapped : ∀ e ∈ batch, IsMapped e.table)
  (hcols : ∀ e ∈ batch, normalizePgTable e.table = pgTable → ∀ data ∈ e.image, data.keys = columns)

include hmap hmapped hcols

/-- **One attempt appends the images once or not at all**, and once when it succeeds: the statements
executed are a prefix of those of the batch, and one of these names the history table at most. -/
theorem history_of_write (a : Attempt) (st : Store) :
    ∃ n, n ≤ 1 ∧ (a.succeeded = true → n = 1) ∧
      applyWrite P (batch, a) st sfHistory = st sfHistory ++ (List.replicate n
        (historyImages P sfHistory (batch.filter fun e => normalizePgTable e.table = pgTable))).flatten := by
  have hgroup : ∀ e ∈ batch.filter (fun e => normalizePgTable e.table = pgTable),
      ∀ data ∈ e.image, data.keys = columns := by
    intro e he
    rw [List.mem_filter, decide_eq_true_eq] at he
    exact hcols e he.1 he.2
  have hall := filter_writeBatch_history (P := P) hmap hmapped
  have hprefix : (a.executed P batch).filter (·.table = sfHistory) <+:
      insertHistory P sfHistory (batch.filter fun e => normalizePgTable e.table = pgTable) := by
    rw [← hall, Attempt.executed]
    split
    · exact List.prefix_refl _
    · exact (List.take_prefix _ _).filter _
  rw [applyWrite, execute_table]
  by_cases hwhole : (a.executed P batch).filter (·.table = sfHistory) =
      insertHistory P sfHistory (batch.filter fun e => normalizePgTable e.table = pgTable)
  · refine ⟨1, le_refl 1, fun _ => rfl, ?_⟩
    rw [hwhole, insertHistory_onTable hgroup, List.replicate_one, List.flatten_singleton]
  · have hnil : (a.executed P batch).filter (·.table = sfHistory) = [] := by
      have hone : (insertHistory P sfHistory
          (batch.filter fun e => normalizePgTable e.table = pgTable)).length ≤ 1 := by
        rw [insertHistory]
        split
        · exact Nat.zero_le 1
        · exact le_refl 1
      by_contra hne
      apply hwhole
      apply hprefix.eq_of_length_le
      have hpos := List.length_pos_iff.mpr hne
      omega
    refine ⟨0, Nat.zero_le 1, fun ha => ?_, ?_⟩
    · have hfull : a.executed P batch = (writeBatch P batch).1 := by
        rw [Attempt.executed, Option.isNone_iff_eq_none.mp ha]
      rw [hfull] at hwhole
      exact absurd hall hwhole
    · rw [hnil]
      exact (List.append_nil _).symm

/-- **Failed attempts and then a successful one** append the images between once and once for each
attempt. -/
theorem history_of_writes (failed : List Attempt) {a : Attempt} (ha : a.succeeded = true) (st : Store) :
    ∃ n, 1 ≤ n ∧ n ≤ failed.length + 1 ∧
      applyWrites P ((failed ++ [a]).map fun a => (batch, a)) st sfHistory =
        st sfHistory ++ (List.replicate n (historyImages P sfHistory
          (batch.filter fun e => normalizePgTable e.table = pgTable))).flatten := by
  induction failed generalizing st with
  | nil =>
    obtain ⟨n, -, hsucceeded, hwrite⟩ := history_of_write hmap hmapped hcols a st
    have hn : n = 1 := hsucceeded ha
    exact ⟨n, hn.ge, hn.le, hwrite⟩
  | cons f failed ih =>
    obtain ⟨n, hn, -, hwrite⟩ := history_of_write hmap hmapped hcols f st
    obtain ⟨m, hm, hmle, hrest⟩ := ih (applyWrite P (batch, f) st)
    refine ⟨n + m, by omega, by rw [List.length_cons]; omega, ?_⟩
    show applyWrites P ((failed ++ [a]).map fun a => (batch, a)) (applyWrite P (batch, f) st) _ = _
    rw [hrest, hwrite, List.append_assoc, ← List.flatten_append, List.replicate_append_replicate]

end Batch

/-! ### A flush -/

/-- The attempts of a loop whose first success is attempt `attempt + k`. -/
theorem retryLoop_first_success (maxRetries : ℤ) (outcome : ℕ → Attempt) :
    ∀ k left attempt : ℕ, k < left → (attempt : ℤ) + left = maxRetries + 1 →
      (∀ i < k, (outcome (attempt + i)).succeeded = false) →
      (outcome (attempt + k)).succeeded = true →
      ∃ failed : List Attempt, failed.length = k ∧
        retryLoop maxRetries outcome left attempt = (failed ++ [outcome (attempt + k)], .ok ())
  | _, 0, _, hk, _, _, _ => absurd hk (Nat.not_lt_zero _)
  | 0, left + 1, attempt, _, _, _, hok => by
    have hfirst : (outcome attempt).succeeded = true := hok
    refine ⟨[], rfl, ?_⟩
    rw [retryLoop, if_pos hfirst]
    rfl
  | k + 1, left + 1, attempt, hk, hsum, hfailed, hok => by
    have hfirst : ¬ (outcome attempt).succeeded = true := by
      have h := hfailed 0 (Nat.succ_pos k)
      rw [Nat.add_zero] at h
      simp [h]
    have hshift : attempt + 1 + k = attempt + (k + 1) := by omega
    obtain ⟨failed, hlen, hrest⟩ := retryLoop_first_success maxRetries outcome k left (attempt + 1)
      (by omega) (by omega)
      (fun i hi => by
        have h := hfailed (i + 1) (by omega)
        rwa [show attempt + (i + 1) = attempt + 1 + i by omega] at h)
      (by rw [hshift]; exact hok)
    rw [hshift] at hrest
    refine ⟨outcome attempt :: failed, by rw [List.length_cons, hlen], ?_⟩
    rw [retryLoop, if_neg hfirst, if_pos (by omega)]
    simp only [hrest, List.cons_append]

/-- **History is an at-least-once audit trail with nothing invented.**  A flush whose first `k` attempts
fail, each after any number of its statements, and whose next one succeeds appends to the history table
of every mapped table the rows of the events with an image, in the order of the events, `n` times over
with `1 ≤ n ≤ k + 1`; nothing else is appended. -/
theorem history_at_least_once (P : Platform) (cfg : Config) (sink : SnowflakeSink) (env : CallEnv)
    {k : ℕ} (hk : (k : ℤ) < cfg.maxRetries)
    (hfailed : ∀ i < k, (env.outcome (1 + i)).succeeded = false)
    (hok : (env.outcome (1 + k)).succeeded = true) (hmapped : ∀ e ∈ sink.buffer, IsMapped e.table)
    (columnsOf : String → List String)
    (hcols : ∀ e ∈ sink.buffer, ∀ data ∈ e.image, data.keys = columnsOf (normalizePgTable e.table))
    (st : Store) {pgTable sfCurrent sfHistory : String}
    (hmap : tableMap.get? pgTable = some (sfCurrent, sfHistory)) :
    ∃ n, 1 ≤ n ∧ n ≤ k + 1 ∧
      applyWrites P (sink.flush cfg env).writes st sfHistory =
        st sfHistory ++ (List.replicate n (historyImages P sfHistory
          (sink.buffer.filter fun e => normalizePgTable e.table = pgTable))).flatten := by
  have hgroup : ∀ e ∈ sink.buffer, normalizePgTable e.table = pgTable →
      ∀ data ∈ e.image, data.keys = columnsOf pgTable := by
    rintro e he rfl
    exact hcols e he
  by_cases hempty : sink.buffer = []
  · refine ⟨1, le_refl 1, by omega, ?_⟩
    rw [sink.flush_empty cfg env hempty, hempty]
    exact (List.append_nil _).symm
  · obtain ⟨failed, hlen, hloop⟩ := retryLoop_first_success cfg.maxRetries env.outcome k
      cfg.maxRetries.toNat 1 (by omega) (by omega) hfailed hok
    have hwrites : (sink.flush cfg env).writes =
        (failed ++ [env.outcome (1 + k)]).map fun a => (sink.buffer, a) := by
      have hnot : ¬ sink.buffer.isEmpty = true := by simpa using hempty
      rw [SnowflakeSink.flush, if_neg hnot]
      simp only [hloop]
    obtain ⟨n, hpos, hle, hrows⟩ := history_of_writes hmap hmapped hgroup failed hok st
    rw [hlen] at hle
    exact ⟨n, hpos, hle, by rw [hwrites]; exact hrows⟩

/-- A first attempt that fails behind the MERGE and the history INSERT of the devices, and a second one
that succeeds. -/
def secondAttemptEnv : CallEnv :=
  ⟨0, 0, fun attempt => ⟨if attempt = 1 then some 2 else none, lastFirstTie⟩⟩

/-- Device 1 comes and goes, and one attempt fails. -/
theorem history_at_least_once_devices :
    ∃ n, 1 ≤ n ∧ n ≤ 1 + 1 ∧
      applyWrites .ascii (SnowflakeSink.flush ⟨500, 10, 5⟩
          ⟨[deviceEvent .c (deviceRow "1" "tv") 10 12, deviceEvent .d (deviceRow "1" "tv") 11 12], 0⟩
          secondAttemptEnv).writes (fun _ => []) "CUSTOMER_DEVICES_HISTORY" =
        [] ++ (List.replicate n (historyImages .ascii "CUSTOMER_DEVICES_HISTORY"
          ([deviceEvent .c (deviceRow "1" "tv") 10 12, deviceEvent .d (deviceRow "1" "tv") 11 12].filter
            fun e => normalizePgTable e.table = "customer_devices"))).flatten :=
  history_at_least_once .ascii ⟨500, 10, 5⟩
    ⟨[deviceEvent .c (deviceRow "1" "tv") 10 12, deviceEvent .d (deviceRow "1" "tv") 11 12], 0⟩
    secondAttemptEnv (by decide) (by decide) (by decide) (by decide) (fun _ => ["id", "label"])
    (by decide) (fun _ => [])
    (show tableMap.get? "customer_devices" = some ("CUSTOMER_DEVICES", "CUSTOMER_DEVICES_HISTORY") by
      decide)

end PgSnowflakeCdc
