import PgSnowflakeCdc.Sink.Statement

/-!
# `_write_batch`: the statements of a batch

A batch is grouped by table; each group becomes at most one MERGE, one DELETE per delete event and
at most one history INSERT, in that order.

* `writeBatch` — the statements the loop executes, and the `KeyError` it ends with when a group has
  no entry in `_TABLE_MAP`;
* `keyedOn_writeBatch` — every statement writes its current-state table by primary key;
* `filter_writeBatch` — the statements of one current-state table are those of its own group;
* `rowsAt_writeBatch` — **a batch at a key**: the row operations of that group.
-/

namespace PgSnowflakeCdc

open OrderedDict RowNumbering KeyedRows

/-! ### The three writers -/

/-- `_OP_LABEL`. -/
def opLabel : Op → String
  | .c => "I"
  | .u => "U"
  | .d => "D"

/-- `e.op in ("c", "u")`. -/
def ChangeEvent.isUpsert (e : ChangeEvent) : Bool := e.op = .c || e.op = .u

/-- `e.after if e.op in ("c", "u") else e.before`. -/
def ChangeEvent.image (e : ChangeEvent) : Option Row := if e.isUpsert then e.after else e.before

/-- `[_row_to_sf(e.after or {}) for e in events if e.after]`: an absent and an empty row are both
false. -/
def mergeRows (P : Platform) (events : List ChangeEvent) : List Row :=
  events.filterMap fun e =>
    match e.after with
    | some row => if row.entries.isEmpty then none else some (rowToSf P row)
    | none => none

/-- `_merge_current`: the column list is that of the first row. -/
def mergeCurrent (P : Platform) (sfTable : String) (pk : List String) (events : List ChangeEvent) :
    List Stmt :=
  match mergeRows P events with
  | [] => []
  | first :: rest =>
    [.merge sfTable pk first.keys ((first :: rest).map fun row => first.keys.map (cell row))]

/-- `_delete_current`. -/
def deleteCurrent (P : Platform) (sfTable : String) (pk : List String) (events : List ChangeEvent) :
    List Stmt :=
  events.map fun e => .delete sfTable pk (pk.map (cell (rowToSf P (e.before.getD ∅))))

/-- The history row of an event that has an image. -/
def historyRow (P : Platform) (e : ChangeEvent) (data : Row) : Row :=
  (((rowToSf P data).set "_CDC_OP" (.str (opLabel e.op))).set "_CDC_LSN" (.int e.lsn)).set
    "_CDC_TS" (.str (P.tsText e.tsMs))

def historyRows (P : Platform) (events : List ChangeEvent) : List Row :=
  events.filterMap fun e => e.image.map (historyRow P e)

/-- `_insert_history`. -/
def insertHistory (P : Platform) (sfHistTable : String) (events : List ChangeEvent) : List Stmt :=
  match historyRows P events with
  | [] => []
  | first :: rest =>
    [.insert sfHistTable first.keys ((first :: rest).map fun row => first.keys.map (cell row))]

/-! ### The batch -/

/-- The current-state part of the loop body of `_write_batch`: upserts, then deletes. -/
def writeCurrent (P : Platform) (sfCurrent : String) (tblEvents : List ChangeEvent) : List Stmt :=
  let upserts := tblEvents.filter (·.isUpsert)
  let deletes := tblEvents.filter (·.op = .d)
  (if upserts.isEmpty then [] else mergeCurrent P sfCurrent (pkOf sfCurrent) upserts)
    ++ (if deletes.isEmpty then [] else deleteCurrent P sfCurrent (pkOf sfCurrent) deletes)

/-- `KeyError`, with the key. -/
structure KeyError where
  key : String
deriving DecidableEq

/-- The loop over the groups. -/
def writeGroups (P : Platform) : List (String × List ChangeEvent) → List Stmt × Except KeyError Unit
  | [] => ([], .ok ())
  | (pgTable, tblEvents) :: groups =>
    match tableMap.get? pgTable with
    | none => ([], .error ⟨pgTable⟩)
    | some (sfCurrent, sfHistory) =>
      let (stmts, result) := writeGroups P groups
      (writeCurrent P sfCurrent tblEvents ++ insertHistory P sfHistory tblEvents ++ stmts, result)

/-- `_write_batch`: the statements executed when none of them fails, and how it ends. -/
def writeBatch (P : Platform) (events : List ChangeEvent) : List Stmt × Except KeyError Unit :=
  writeGroups P (Dict.groupBy (fun e => normalizePgTable e.table) events).entries

/-! ### Which statements there are -/

theorem isUpsert_eq_false_iff {e : ChangeEvent} : e.isUpsert = false ↔ e.op = .d := by
  cases h : e.op <;> simp [ChangeEvent.isUpsert, h]

theorem isUpsert_iff {e : ChangeEvent} : e.isUpsert = true ↔ e.op ≠ .d := by
  rw [Ne, ← isUpsert_eq_false_iff, Bool.not_eq_false]

/-- An empty list of upserts or deletes makes no statement, with or without the guard. -/
theorem writeCurrent_eq (P : Platform) (sfCurrent : String) (tblEvents : List ChangeEvent) :
    writeCurrent P sfCurrent tblEvents =
      mergeCurrent P sfCurrent (pkOf sfCurrent) (tblEvents.filter (·.isUpsert))
        ++ deleteCurrent P sfCurrent (pkOf sfCurrent) (tblEvents.filter (·.op = .d)) := by
  rw [writeCurrent]
  congr 1
  · cases tblEvents.filter (·.isUpsert) <;> rfl
  · cases tblEvents.filter (fun e => decide (e.op = .d)) <;> rfl

theorem table_of_mem_mergeCurrent {P : Platform} {sfTable : String} {pk : List String}
    {events : List ChangeEvent} {stmt : Stmt} (h : stmt ∈ mergeCurrent P sfTable pk events) :
    stmt.table = sfTable := by
  rw [mergeCurrent] at h
  split at h
  · simp at h
  · rw [List.mem_singleton] at h
    rw [h, Stmt.table]

theorem table_of_mem_writeCurrent {P : Platform} {sfCurrent : String}
    {tblEvents : List ChangeEvent} {stmt : Stmt} (h : stmt ∈ writeCurrent P sfCurrent tblEvents) :
    stmt.table = sfCurrent := by
  rw [writeCurrent_eq, List.mem_append] at h
  rcases h with h | h
  · exact table_of_mem_mergeCurrent h
  · obtain ⟨e, -, rfl⟩ := List.mem_map.mp h
    rfl

theorem table_of_mem_insertHistory {P : Platform} {sfHistory : String}
    {tblEvents : List ChangeEvent} {stmt : Stmt} (h : stmt ∈ insertHistory P sfHistory tblEvents) :
    ∃ allCols rows, stmt = .insert sfHistory allCols rows := by
  rw [insertHistory] at h
  split at h
  · simp at h
  · exact ⟨_, _, List.mem_singleton.mp h⟩

theorem writeGroups_cons_mapped (P : Platform) {pgTable sfCurrent sfHistory : String}
    (h : tableMap.get? pgTable = some (sfCurrent, sfHistory)) (tblEvents : List ChangeEvent)
    (groups : List (String × List ChangeEvent)) :
    writeGroups P ((pgTable, tblEvents) :: groups) =
      (writeCurrent P sfCurrent tblEvents ++ insertHistory P sfHistory tblEvents
        ++ (writeGroups P groups).1, (writeGroups P groups).2) := by
  rw [writeGroups, h]

/-- A statement of a batch belongs to the group of a mapped table. -/
theorem mem_writeGroups {P : Platform} {groups : List (String × List ChangeEvent)} {stmt : Stmt}
    (h : stmt ∈ (writeGroups P groups).1) :
    ∃ g ∈ groups, ∃ sfCurrent sfHistory, tableMap.get? g.1 = some (sfCurrent, sfHistory) ∧
      stmt ∈ writeCurrent P sfCurrent g.2 ++ insertHistory P sfHistory g.2 := by
  induction groups with
  | nil => simp [writeGroups] at h
  | cons g groups ih =>
    obtain ⟨pgTable, tblEvents⟩ := g
    cases hmap : tableMap.get? pgTable with
    | none =>
      rw [writeGroups, hmap] at h
      simp at h
    | some p =>
      obtain ⟨sfCurrent, sfHistory⟩ := p
      rw [writeGroups_cons_mapped P hmap] at h
      rcases List.mem_append.mp h with h | h
      · exact ⟨_, List.mem_cons_self, sfCurrent, sfHistory, hmap, h⟩
      · obtain ⟨g, hg, rest⟩ := ih h
        exact ⟨g, List.mem_cons_of_mem _ hg, rest⟩

/-- The groups of mapped events are groups of mapped tables. -/
theorem groups_mapped {events : List ChangeEvent} (h : ∀ e ∈ events, IsMapped e.table) :
    ∀ g ∈ (Dict.groupBy (fun e => normalizePgTable e.table) events).entries,
      g.1 ∈ tableMap.keys := by
  intro g hg
  obtain ⟨e, he, hkey⟩ := Dict.mem_keys_groupBy.mp (List.mem_map_of_mem hg)
  rw [← hkey]
  exact h e he

/-- A batch of mapped tables ends without an exception. -/
theorem writeGroups_of_mapped {P : Platform} {groups : List (String × List ChangeEvent)}
    (h : ∀ g ∈ groups, g.1 ∈ tableMap.keys) : (writeGroups P groups).2 = .ok () := by
  induction groups with
  | nil => rfl
  | cons g groups ih =>
    obtain ⟨pgTable, tblEvents⟩ := g
    cases hmap : tableMap.get? pgTable with
    | none => exact absurd (h _ List.mem_cons_self) (Dict.get?_eq_none_iff.mp hmap)
    | some p =>
      rw [writeGroups_cons_mapped P hmap]
      exact ih fun g hg => h g (List.mem_cons_of_mem _ hg)

/-! ### Keys -/

/-- The row has a value in every key column of the table. -/
def KeyNonNull (P : Platform) (sfTable : String) (row : Row) : Prop :=
  ∀ c ∈ pkOf sfTable, cell (rowToSf P row) c ≠ .none

instance (P : Platform) (sfTable : String) (row : Row) : Decidable (KeyNonNull P sfTable row) :=
  inferInstanceAs (Decidable (∀ _ ∈ _, _))

/-- An upsert whose after-image, if it has one, has a non-null key; deletes are not constrained. -/
def ChangeEvent.Keyed (P : Platform) (e : ChangeEvent) : Prop :=
  ∀ target ∈ tableMap.get? (normalizePgTable e.table), ∀ row ∈ e.after,
    e.isUpsert = true → KeyNonNull P target.1 row

instance (P : Platform) (e : ChangeEvent) : Decidable (e.Keyed P) :=
  inferInstanceAs (Decidable (∀ _ ∈ _, _))

/-- A source row built from a dictionary, column by column. -/
theorem sourceRow_map (P : Platform) (sfTable : String) (allCols : List String)
    (f : String → PyVal) (c : String) :
    sourceRow P sfTable allCols (allCols.map f) c =
      if c ∈ allCols then boundValue P sfTable c (f c) else .none := by
  by_cases h : c ∈ allCols
  · rw [if_pos h, sourceRow, find_zip_map h]
  · rw [if_neg h, sourceRow_of_notMem P sfTable _ h]

theorem mem_keys_of_cell {row : Row} {c : String} (h : cell row c ≠ .none) : c ∈ row.keys := by
  by_contra hc
  apply h
  rw [cell, Dict.get?_eq_none_iff.mpr hc, Option.getD_none]

/-- A key column is cast like any other column without JSON. -/
theorem boundValue_of_pk (P : Platform) {sfTable c : String} (h : c ∈ pkOf sfTable) (v : PyVal) :
    boundValue P sfTable c v = P.sqlValue sfTable c v :=
  if_neg (notMem_jsonbSfCols_of_pk P h)

theorem mem_mergeRows {P : Platform} {events : List ChangeEvent} {r : Row}
    (h : r ∈ mergeRows P events) : ∃ e ∈ events, ∃ row, e.after = some row ∧ r = rowToSf P row := by
  obtain ⟨e, he, hr⟩ := List.mem_filterMap.mp h
  cases hafter : e.after with
  | none => simp [hafter] at hr
  | some row =>
    simp only [hafter] at hr
    split at hr
    · simp at hr
    · exact ⟨e, he, row, hafter, (Option.some.inj hr).symm⟩

/-- Rows with non-null keys stay so as source rows of the MERGE. -/
theorem key_notNull_of_mergeCurrent {P : Platform} {sfTable : String} {rows : List Row} {cols : List String}
    (hcols : pkOf sfTable ⊆ cols)
    (h : ∀ r ∈ rows, ∀ c ∈ pkOf sfTable, cell r c ≠ .none) :
    ∀ s ∈ sourceRows P sfTable cols (rows.map fun row => cols.map (cell row)),
      PyVal.none ∉ keyOf (pkOf sfTable) s := by
  intro s hs hnull
  rw [sourceRows, List.map_map] at hs
  obtain ⟨r, hr, rfl⟩ := List.mem_map.mp hs
  obtain ⟨c, hc, hval⟩ := List.mem_map.mp hnull
  rw [Function.comp_apply, sourceRow_map, if_pos (hcols hc), boundValue_of_pk P hc,
    P.sqlValue_eq_none] at hval
  exact h r hr c hc hval

/-- **Every statement of a batch writes by primary key**: each current-state table is written by its
own key columns, with non-null keys, and history INSERTs name no current-state table. -/
theorem keyedOn_writeBatch {P : Platform} {events : List ChangeEvent}
    (hkey : ∀ e ∈ events, e.Keyed P) {t : String} (ht : t ∈ pkCols.keys) :
    ∀ stmt ∈ (writeBatch P events).1, stmt.KeyedOn P t := by
  intro stmt hstmt
  obtain ⟨⟨pgTable, tblEvents⟩, hg, sfCurrent, sfHistory, hmap, hstmt⟩ := mem_writeGroups hstmt
  have hgroup : tblEvents = events.filter (fun e => normalizePgTable e.table = pgTable) :=
    Dict.mem_entries_groupBy hg
  rw [List.mem_append, writeCurrent_eq, List.mem_append] at hstmt
  rcases hstmt with (hstmt | hstmt) | hstmt
  · rw [mergeCurrent] at hstmt
    split at hstmt
    · simp at hstmt
    · next first rest hrows =>
      rw [List.mem_singleton] at hstmt
      subst hstmt
      rintro rfl
      refine ⟨rfl, ?_⟩
      have hnonnull : ∀ r ∈ first :: rest, ∀ c ∈ pkOf sfCurrent, cell r c ≠ .none := by
        intro r hr
        rw [← hrows] at hr
        obtain ⟨e, he, row, hafter, rfl⟩ := mem_mergeRows hr
        rw [List.mem_filter, hgroup, List.mem_filter, decide_eq_true_eq] at he
        exact hkey e he.1.1 (sfCurrent, sfHistory) (by rw [he.1.2]; exact hmap) row hafter he.2
      apply key_notNull_of_mergeCurrent _ hnonnull
      intro c hc
      exact mem_keys_of_cell (hnonnull first List.mem_cons_self c hc)
  · obtain ⟨e, -, rfl⟩ := List.mem_map.mp hstmt
    rintro rfl
    rfl
  · obtain ⟨allCols, rows, rfl⟩ := table_of_mem_insertHistory hstmt
    rintro rfl
    exact (pkOf_of_mapped hmap).2.2 ht

/-! ### A batch at a key -/

/-- The statements of one group. -/
def groupStmts (P : Platform) (pgTable : String) (tblEvents : List ChangeEvent) : List Stmt :=
  match tableMap.get? pgTable with
  | none => []
  | some (sfCurrent, sfHistory) =>
    writeCurrent P sfCurrent tblEvents ++ insertHistory P sfHistory tblEvents

theorem groupStmts_mapped (P : Platform) {pgTable sfCurrent sfHistory : String}
    (hmap : tableMap.get? pgTable = some (sfCurrent, sfHistory)) (tblEvents : List ChangeEvent) :
    groupStmts P pgTable tblEvents =
      writeCurrent P sfCurrent tblEvents ++ insertHistory P sfHistory tblEvents := by
  rw [groupStmts, hmap]

/-- A group without events has no statements. -/
theorem groupStmts_nil (P : Platform) (pgTable : String) : groupStmts P pgTable [] = [] := by
  rw [groupStmts]
  split <;> rfl

/-- The statements of a group name the two tables of its own table. -/
theorem table_of_mem_groupStmts {P : Platform} {pgTable : String} {tblEvents : List ChangeEvent}
    {stmt : Stmt} (h : stmt ∈ groupStmts P pgTable tblEvents) :
    ∃ sfCurrent sfHistory, tableMap.get? pgTable = some (sfCurrent, sfHistory) ∧
      (stmt.table = sfCurrent ∨ stmt.table = sfHistory) := by
  cases hmap : tableMap.get? pgTable with
  | none =>
    rw [groupStmts, hmap] at h
    cases h
  | some p =>
    obtain ⟨sfCurrent, sfHistory⟩ := p
    rw [groupStmts_mapped P hmap, List.mem_append] at h
    refine ⟨sfCurrent, sfHistory, rfl, ?_⟩
    rcases h with h | h
    · exact Or.inl (table_of_mem_writeCurrent h)
    · obtain ⟨allCols, rows, rfl⟩ := table_of_mem_insertHistory h
      exact Or.inr rfl

/-- **The statements of a table that only one group writes** are those of that group. -/
theorem filter_writeGroups_of_only {P : Platform} {t pgTable : String}
    {groups : List (String × List ChangeEvent)} (hn : (groups.map Prod.fst).Nodup)
    (h : ∀ g ∈ groups, g.1 ∈ tableMap.keys)
    (honly : ∀ g ∈ groups, g.1 ≠ pgTable → ∀ stmt ∈ groupStmts P g.1 g.2, stmt.table ≠ t) :
    (writeGroups P groups).1.filter (·.table = t) =
      (groupStmts P pgTable ((find pgTable groups).getD [])).filter (·.table = t) := by
  induction groups with
  | nil =>
    show [] = (groupStmts P pgTable []).filter (·.table = t)
    rw [groupStmts_nil]
    rfl
  | cons g groups ih =>
    obtain ⟨pgTable', tblEvents⟩ := g
    rw [List.map_cons, List.nodup_cons] at hn
    have ih := ih hn.2 (fun g hg => h g (List.mem_cons_of_mem _ hg))
      (fun g hg => honly g (List.mem_cons_of_mem _ hg))
    cases hmap' : tableMap.get? pgTable' with
    | none => exact absurd (h _ List.mem_cons_self) (Dict.get?_eq_none_iff.mp hmap')
    | some p =>
      obtain ⟨sfCurrent', sfHistory'⟩ := p
      rw [writeGroups_cons_mapped P hmap', ← groupStmts_mapped P hmap', List.filter_append, ih]
      by_cases hkey : pgTable' = pgTable
      · subst hkey
        have hrest : find pgTable' groups = none := find_eq_none_iff.mpr hn.1
        rw [hrest, find, if_pos rfl, Option.getD_none, Option.getD_some, groupStmts_nil]
        exact List.append_nil _
      · have hnone : (groupStmts P pgTable' tblEvents).filter (·.table = t) = [] := by
          rw [List.filter_eq_nil_iff]
          intro stmt hstmt htable
          exact honly _ List.mem_cons_self hkey stmt hstmt (of_decide_eq_true htable)
        rw [hnone, find, if_neg hkey, List.nil_append]

section Group

variable {P : Platform} {pgTable sfCurrent sfHistory : String}
  (hmap : tableMap.get? pgTable = some (sfCurrent, sfHistory))

include hmap

theorem filter_groupStmts_current (tblEvents : List ChangeEvent) :
    (groupStmts P pgTable tblEvents).filter (·.table = sfCurrent) =
      writeCurrent P sfCurrent tblEvents := by
  have hhistory : (insertHistory P sfHistory tblEvents).filter (·.table = sfCurrent) = [] := by
    rw [List.filter_eq_nil_iff]
    intro stmt hstmt htable
    obtain ⟨allCols, rows, rfl⟩ := table_of_mem_insertHistory hstmt
    exact tableMap_current_ne_history hmap hmap (of_decide_eq_true htable).symm
  rw [groupStmts_mapped P hmap, List.filter_append, hhistory, List.append_nil, List.filter_eq_self]
  exact fun stmt hstmt => decide_eq_true (table_of_mem_writeCurrent hstmt)

theorem filter_groupStmts_history (tblEvents : List ChangeEvent) :
    (groupStmts P pgTable tblEvents).filter (·.table = sfHistory) =
      insertHistory P sfHistory tblEvents := by
  have hcurrent : (writeCurrent P sfCurrent tblEvents).filter (·.table = sfHistory) = [] := by
    rw [List.filter_eq_nil_iff]
    intro stmt hstmt htable
    rw [table_of_mem_writeCurrent hstmt] at htable
    exact tableMap_current_ne_history hmap hmap (of_decide_eq_true htable)
  rw [groupStmts_mapped P hmap, List.filter_append, hcurrent, List.nil_append, List.filter_eq_self]
  intro stmt hstmt
  obtain ⟨allCols, rows, rfl⟩ := table_of_mem_insertHistory hstmt
  exact decide_eq_true rfl

/-- The statements of a current-state table are those of its own group. -/
theorem filter_writeGroups {groups : List (String × List ChangeEvent)}
    (hn : (groups.map Prod.fst).Nodup) (h : ∀ g ∈ groups, g.1 ∈ tableMap.keys) :
    (writeGroups P groups).1.filter (·.table = sfCurrent) =
      writeCurrent P sfCurrent ((find pgTable groups).getD []) := by
  rw [filter_writeGroups_of_only hn h, filter_groupStmts_current hmap]
  rintro g - hne stmt hstmt rfl
  obtain ⟨sfCurrent', sfHistory', hmap', hname | hname⟩ := table_of_mem_groupStmts hstmt
  · rw [hname] at hmap
    exact hne (tableMap_current_injective hmap' hmap)
  · exact tableMap_current_ne_history hmap hmap' hname

/-- The statements of a history table are those of its own group. -/
theorem filter_writeGroups_history {groups : List (String × List ChangeEvent)}
    (hn : (groups.map Prod.fst).Nodup) (h : ∀ g ∈ groups, g.1 ∈ tableMap.keys) :
    (writeGroups P groups).1.filter (·.table = sfHistory) =
      insertHistory P sfHistory ((find pgTable groups).getD []) := by
  rw [filter_writeGroups_of_only hn h, filter_groupStmts_history hmap]
  rintro g - hne stmt hstmt rfl
  obtain ⟨sfCurrent', sfHistory', hmap', hname | hname⟩ := table_of_mem_groupStmts hstmt
  · exact tableMap_current_ne_history hmap' hmap hname.symm
  · rw [hname] at hmap
    exact hne (tableMap_history_injective hmap' hmap)

end Group

theorem filter_writeBatch {P : Platform} {pgTable sfCurrent sfHistory : String}
    (hmap : tableMap.get? pgTable = some (sfCurrent, sfHistory)) {events : List ChangeEvent}
    (h : ∀ e ∈ events, IsMapped e.table) :
    (writeBatch P events).1.filter (·.table = sfCurrent) =
      writeCurrent P sfCurrent (events.filter fun e => normalizePgTable e.table = pgTable) := by
  rw [writeBatch, filter_writeGroups hmap (Dict.nodup _) (groups_mapped h)]
  congr 1
  exact Dict.getD_groupBy _ events pgTable

theorem filter_writeBatch_history {P : Platform} {pgTable sfCurrent sfHistory : String}
    (hmap : tableMap.get? pgTable = some (sfCurrent, sfHistory)) {events : List ChangeEvent}
    (h : ∀ e ∈ events, IsMapped e.table) :
    (writeBatch P events).1.filter (·.table = sfHistory) =
      insertHistory P sfHistory (events.filter fun e => normalizePgTable e.table = pgTable) := by
  rw [writeBatch, filter_writeGroups_history hmap (Dict.nodup _) (groups_mapped h)]
  congr 1
  exact Dict.getD_groupBy _ events pgTable

/-- **A batch at a key of a current-state table**: the row operations of its own group. -/
theorem rowsAt_writeBatch {P : Platform} {pgTable sfCurrent sfHistory : String}
    (hmap : tableMap.get? pgTable = some (sfCurrent, sfHistory)) {events : List ChangeEvent}
    (hmapped : ∀ e ∈ events, IsMapped e.table) (hkey : ∀ e ∈ events, e.Keyed P)
    (tie : Stmt → RowOrder) (st : Store) (k : List PyVal) :
    rowsAt (keyOf (pkOf sfCurrent)) k (execute P tie (writeBatch P events).1 st sfCurrent) =
      runOps .none ((writeCurrent P sfCurrent (events.filter fun e =>
        normalizePgTable e.table = pgTable)).map (Stmt.opAt P tie sfCurrent k))
        (rowsAt (keyOf (pkOf sfCurrent)) k (st sfCurrent)) := by
  rw [rowsAt_execute (keyedOn_writeBatch hkey (pkOf_of_mapped hmap).2.1), ← runOps_filter_table,
    filter_writeBatch hmap hmapped]

/-! ### Sample rows -/

/-- A row of `customer_devices` as pgoutput delivers it. -/
def deviceRow (id label : String) : Row := ⟨[("id", .str id), ("label", .str label)], by simp⟩

/-- A change of `public.customer_devices`. -/
def deviceEvent (op : Op) (row : Row) (lsn commitLsn : ℕ) : ChangeEvent where
  op := op
  schema := "public"
  table := "customer_devices"
  before := if op = .d then some row else none
  after := if op = .d then none else some row
  lsn := lsn
  tsMs := 0
  commitLsn := commitLsn

example : (writeBatch .ascii [deviceEvent .c (deviceRow "1" "tv") 10 12,
    deviceEvent .d (deviceRow "1" "tv") 11 12]).1.map Stmt.table =
      ["CUSTOMER_DEVICES", "CUSTOMER_DEVICES", "CUSTOMER_DEVICES_HISTORY"] := by
  decide

end PgSnowflakeCdc
