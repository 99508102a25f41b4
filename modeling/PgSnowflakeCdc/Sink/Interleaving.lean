import PgSnowflakeCdc.Sink.BatchOrder

/-!
# Changes of different tables in one batch

The groups of a batch run in the order in which their tables first occur, each on the two Snowflake
tables of its own.

* `SameByTable` — two batches are interleavings of the same changes per table;
* `filter_writeBatch_congr` — such batches execute the same statements, in the same order, on every
  table;
* `completeBatch_interleaving` — **they leave the same store.**
-/

namespace PgSnowflakeCdc

open OrderedDict RowNumbering KeyedRows

/-- The sublists of the two batches for each table are equal. -/
def SameByTable (xs ys : List ChangeEvent) : Prop :=
  ∀ pgTable ∈ tableMap.keys, xs.filter (fun e => normalizePgTable e.table = pgTable) =
    ys.filter fun e => normalizePgTable e.table = pgTable

instance (xs ys : List ChangeEvent) : Decidable (SameByTable xs ys) :=
  inferInstanceAs (Decidable (∀ _ ∈ _, _))

/-- A statement of a batch names the current-state or the history table of a mapped table. -/
theorem table_of_mem_writeBatch {P : Platform} {events : List ChangeEvent} {stmt : Stmt}
    (h : stmt ∈ (writeBatch P events).1) :
    ∃ pgTable sfCurrent sfHistory, tableMap.get? pgTable = some (sfCurrent, sfHistory) ∧
      (stmt.table = sfCurrent ∨ stmt.table = sfHistory) := by
  obtain ⟨g, -, sfCurrent, sfHistory, hmap, hstmt⟩ := mem_writeGroups h
  rw [← groupStmts_mapped P hmap] at hstmt
  exact ⟨g.1, table_of_mem_groupStmts hstmt⟩

section Interleaving

variable {P : Platform} {xs ys : List ChangeEvent} (hxs : ∀ e ∈ xs, IsMapped e.table)
  (hys : ∀ e ∈ ys, IsMapped e.table) (h : SameByTable xs ys)

include hxs hys h

/-- **The statements of each table are the same.** -/
theorem filter_writeBatch_congr (t : String) :
    (writeBatch P xs).1.filter (·.table = t) = (writeBatch P ys).1.filter (·.table = t) := by
  by_cases hmapped : ∃ pgTable sfCurrent sfHistory,
      tableMap.get? pgTable = some (sfCurrent, sfHistory) ∧ (t = sfCurrent ∨ t = sfHistory)
  · obtain ⟨pgTable, sfCurrent, sfHistory, hmap, rfl | rfl⟩ := hmapped
    · rw [filter_writeBatch hmap hxs, filter_writeBatch hmap hys,
        h pgTable (Dict.mem_keys_of_get? hmap)]
    · rw [filter_writeBatch_history hmap hxs, filter_writeBatch_history hmap hys,
        h pgTable (Dict.mem_keys_of_get? hmap)]
  · have hnone : ∀ events : List ChangeEvent,
        (writeBatch P events).1.filter (·.table = t) = [] := by
      intro events
      rw [List.filter_eq_nil_iff]
      intro stmt hstmt htable
      obtain ⟨pgTable, sfCurrent, sfHistory, hmap, hname⟩ := table_of_mem_writeBatch hstmt
      rw [of_decide_eq_true htable] at hname
      exact hmapped ⟨pgTable, sfCurrent, sfHistory, hmap, hname⟩
    rw [hnone xs, hnone ys]

/-- The batches consist of the same statements. -/
theorem mem_writeBatch_congr (stmt : Stmt) :
    stmt ∈ (writeBatch P xs).1 ↔ stmt ∈ (writeBatch P ys).1 := by
  have hown : ∀ events : List ChangeEvent, stmt ∈ (writeBatch P events).1 ↔
      stmt ∈ (writeBatch P events).1.filter (·.table = stmt.table) := by
    intro events
    rw [List.mem_filter, decide_eq_true rfl, and_iff_left rfl]
  rw [hown xs, hown ys, filter_writeBatch_congr hxs hys h]

end Interleaving

/-- **Interleaving of different tables is irrelevant.**  Two batches of mapped events whose sublists for
each table are equal either both return normally, and then leave the same rows in the same order in
every table, or both do not. -/
theorem completeBatch_interleaving (P : Platform) (tie : Stmt → RowOrder) {xs ys : List ChangeEvent}
    (hxs : ∀ e ∈ xs, IsMapped e.table) (hys : ∀ e ∈ ys, IsMapped e.table) (h : SameByTable xs ys)
    (st : Store) : completeBatch P tie xs st = completeBatch P tie ys st := by
  have hpair : ∀ events : List ChangeEvent, (∀ e ∈ events, IsMapped e.table) →
      writeBatch P events = ((writeBatch P events).1, .ok ()) :=
    fun events hmapped => Prod.ext rfl (writeGroups_of_mapped (groups_mapped hmapped))
  have hcompiles : (∀ stmt ∈ (writeBatch P xs).1, stmt.Compiles) ↔
      ∀ stmt ∈ (writeBatch P ys).1, stmt.Compiles := by
    simp only [mem_writeBatch_congr hxs hys h]
  have hstore : execute P tie (writeBatch P xs).1 st = execute P tie (writeBatch P ys).1 st := by
    funext t
    rw [execute_table, execute_table, filter_writeBatch_congr hxs hys h]
  rw [completeBatch, completeBatch, hpair xs hxs, hpair ys hys]
  dsimp only
  rw [if_congr hcompiles rfl rfl, hstore]

/-- A change of a customer in partition 3. -/
def partitionEvent : ChangeEvent :=
  { deviceEvent .c ⟨[("id", .str "7"), ("tenantId", .str "a"), ("email", .none)], by simp⟩ 11 12 with
    table := "customers_p3" }

/-- A customer between two changes of a device, or behind them. -/
theorem completeBatch_interleaving_customer :
    completeBatch .ascii lastFirstTie [deviceEvent .c (deviceRow "1" "tv") 10 12, partitionEvent,
        deviceEvent .u (deviceRow "1" "radio") 12 12] (fun _ => []) =
      completeBatch .ascii lastFirstTie [deviceEvent .c (deviceRow "1" "tv") 10 12,
        deviceEvent .u (deviceRow "1" "radio") 12 12, partitionEvent] (fun _ => []) :=
  completeBatch_interleaving .ascii lastFirstTie (by decide) (by decide) (by decide) fun _ => []

end PgSnowflakeCdc
