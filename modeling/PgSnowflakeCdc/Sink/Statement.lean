import PgSnowflakeCdc.Foundations.KeyedRows
import PgSnowflakeCdc.Foundations.RowNumbering
import PgSnowflakeCdc.Sink.Schema

/-!
# The SQL statements of the sink and what Snowflake does with them

The three statements the sink executes, as data, and their meaning on a store of tables.

* `Stmt.apply` — one statement on the store; a MERGE takes the order in which the engine numbers
  the rows of its source;
* `Stmt.opAt` — the same statement seen at one key of one table, as a row operation;
* `rowsAt_execute` — **the bridge**: at every key, executing statements is executing their row
  operations.

`_LOADED_AT` is not part of a row.
-/

namespace PgSnowflakeCdc

open OrderedDict RowNumbering KeyedRows

/-! ### Tables -/

/-- A Snowflake row: column ↦ value, `.none` being `NULL`. -/
abbrev SfRow := String → PyVal

abbrev Table := List SfRow

/-- The tables of the target schema, by name. -/
abbrev Store := String → Table

/-- The values of the columns `cols`. -/
def keyOf (cols : List String) (r : SfRow) : List PyVal := cols.map r

/-- `a₁ = b₁ AND a₂ = b₂ …` of two lists of values: not true as soon as a side is `NULL`. -/
def SqlEq (xs ys : List PyVal) : Prop := xs = ys ∧ PyVal.none ∉ xs

instance (xs ys : List PyVal) : Decidable (SqlEq xs ys) := inferInstanceAs (Decidable (_ ∧ _))

theorem sqlEq_iff {xs ys : List PyVal} (h : PyVal.none ∉ ys) : SqlEq xs ys ↔ xs = ys := by
  constructor
  · exact fun heq => heq.1
  · rintro rfl
    exact ⟨rfl, h⟩

/-! ### Statements -/

/-- A statement and its bound parameters. -/
inductive Stmt where
  /-- `_build_batch_merge_sql`: key columns, column list, one parameter row per source row. -/
  | merge (sfTable : String) (pkCols allCols : List String) (rows : List (List PyVal)) : Stmt
  /-- `DELETE FROM … WHERE c = %s AND …`. -/
  | delete (sfTable : String) (pkCols : List String) (key : List PyVal) : Stmt
  /-- `INSERT INTO … SELECT … UNION ALL SELECT …`. -/
  | insert (sfTable : String) (allCols : List String) (rows : List (List PyVal)) : Stmt
deriving DecidableEq

/-- `PARSE_JSON(%s)` or `%s`, cast to the type of the column it is written to. -/
def boundValue (P : Platform) (sfTable c : String) (v : PyVal) : PyVal :=
  if c ∈ jsonbSfCols P then P.parsedJson v else P.sqlValue sfTable c v

/-- The connector binds the value, which is no `dict` or `list`, and `PARSE_JSON` accepts it where the
column is a JSONB column. -/
def Bindable (P : Platform) (c : String) (v : PyVal) : Prop :=
  v.isContainer = false ∧ (c ∈ jsonbSfCols P → (P.parseJson v).isSome = true)

instance (P : Platform) (c : String) (v : PyVal) : Decidable (Bindable P c v) :=
  inferInstanceAs (Decidable (_ ∧ _))

/-- The values of a converted row can be bound. -/
def RowBinds (P : Platform) (row : Row) : Prop := ∀ c ∈ row.keys, Bindable P c (cell row c)

instance (P : Platform) : DecidablePred (RowBinds P) :=
  fun _ => inferInstanceAs (Decidable (∀ _ ∈ _, _))

/-- The parameters of some rows can be bound when the values of each row can. -/
theorem bindable_params_iff (P : Platform) {allCols : List String} {rows : List Row}
    (h : ∀ row ∈ rows, ∀ c, c ∈ row.keys ↔ c ∈ allCols) :
    (∀ params ∈ rows.map fun row => allCols.map (cell row), ∀ p ∈ allCols.zip params,
        Bindable P p.1 p.2) ↔ ∀ row ∈ rows, RowBinds P row := by
  rw [List.forall_mem_map]
  refine forall₂_congr fun row hrow => ?_
  rw [← List.map_prod_left_eq_zip, List.forall_mem_map, RowBinds]
  exact forall_congr' fun c => by rw [h row hrow c]

/-- `SELECT … AS c₁, … AS c₂`: one row of a source; a column it does not list is `NULL`. -/
def sourceRow (P : Platform) (sfTable : String) (allCols : List String) (params : List PyVal) :
    SfRow := fun c =>
  match find c (allCols.zip params) with
  | some v => boundValue P sfTable c v
  | none => .none

/-- The rows of the source of a MERGE, before deduplication. -/
def sourceRows (P : Platform) (sfTable : String) (allCols : List String)
    (rows : List (List PyVal)) : Table :=
  rows.map (sourceRow P sfTable allCols)

/-- `ORDER BY pk_cols[0] DESC`. -/
def orderedBefore (P : Platform) (pk : List String) (r r' : SfRow) : Prop :=
  match pk.head? with
  | some c => P.sortsBefore (r' c) (r c)
  | none => False

/-- `WHEN MATCHED THEN UPDATE SET`: the non-key columns of the list. -/
def updateRow (pk allCols : List String) (t s : SfRow) : SfRow := fun c =>
  if c ∈ allCols.filter (· ∉ pk) then s c else t c

/-- `WHEN NOT MATCHED THEN INSERT`: the columns of the list. -/
def insertRow (allCols : List String) (s : SfRow) : SfRow := fun c =>
  if c ∈ allCols then s c else .none

/-- `MERGE INTO t USING src ON …`: matched rows are updated where they stand, the source rows that
match nothing are inserted. -/
def mergeInto (pk allCols : List String) (src t : Table) : Table :=
  (t.map fun r =>
      match src.find? (fun s => SqlEq (keyOf pk r) (keyOf pk s)) with
      | some s => updateRow pk allCols r s
      | none => r)
    ++ (src.filter fun s => ¬ ∃ r ∈ t, SqlEq (keyOf pk r) (keyOf pk s)).map (insertRow allCols)

/-- The key a `WHERE` clause compares with. -/
def boundKey (P : Platform) (sfTable : String) (pk : List String) (key : List PyVal) : List PyVal :=
  (pk.zip key).map fun p => P.sqlValue sfTable p.1 p.2

/-- `DELETE`. -/
def deleteFrom (pk : List String) (key : List PyVal) (t : Table) : Table :=
  t.filter fun r => ¬ SqlEq (keyOf pk r) key

/-- The effect of a statement on the table it names, `o` being the order in which the engine numbers
the source rows of a MERGE. -/
def Stmt.onTable (P : Platform) (o : RowOrder) : Stmt → Table → Table
  | .merge sfTable pk allCols rows, t =>
    mergeInto pk allCols (qualifyFirst (keyOf pk) o (sourceRows P sfTable allCols rows)) t
  | .delete sfTable pk key, t => deleteFrom pk (boundKey P sfTable pk key) t
  | .insert sfTable allCols rows, t => t ++ sourceRows P sfTable allCols rows

/-- The table a statement names. -/
def Stmt.table : Stmt → String
  | .merge sfTable _ _ _ => sfTable
  | .delete sfTable _ _ => sfTable
  | .insert sfTable _ _ => sfTable

/-- The effect of a statement on the store. -/
def Stmt.apply (P : Platform) (o : RowOrder) (stmt : Stmt) (st : Store) : Store :=
  Function.update st stmt.table (stmt.onTable P o (st stmt.table))

/-- Execute statements in order; `tie` gives the row order of each MERGE. -/
def execute (P : Platform) (tie : Stmt → RowOrder) (stmts : List Stmt) (st : Store) : Store :=
  Replay.run (fun stmt => stmt.apply P (tie stmt)) stmts st

/-- Snowflake compiles the text: the key columns of a MERGE are columns of its source, its SET list
does not begin with an empty item, and `_LOADED_AT` is not listed twice. -/
def Stmt.Compiles : Stmt → Prop
  | .merge _ pk allCols _ => pk ⊆ allCols ∧ (∃ c ∈ allCols, c ∉ pk) ∧ "_LOADED_AT" ∉ allCols
  | .delete _ _ _ => True
  | .insert _ allCols _ => "_LOADED_AT" ∉ allCols

instance : DecidablePred Stmt.Compiles
  | .merge _ _ _ _ => inferInstanceAs (Decidable (_ ∧ _))
  | .delete _ _ _ => isTrue trivial
  | .insert _ _ _ => inferInstanceAs (Decidable (_ ∉ _))

/-- Every parameter can be bound. -/
def Stmt.Binds (P : Platform) : Stmt → Prop
  | .merge _ _ allCols rows => ∀ params ∈ rows, ∀ p ∈ allCols.zip params, Bindable P p.1 p.2
  | .delete _ pk key => ∀ p ∈ pk.zip key, Bindable P p.1 p.2
  | .insert _ allCols rows => ∀ params ∈ rows, ∀ p ∈ allCols.zip params, Bindable P p.1 p.2

instance (P : Platform) : DecidablePred (Stmt.Binds P)
  | .merge _ _ _ _ => inferInstanceAs (Decidable (∀ _ ∈ _, _))
  | .delete _ _ _ => inferInstanceAs (Decidable (∀ _ ∈ _, _))
  | .insert _ _ _ => inferInstanceAs (Decidable (∀ _ ∈ _, _))

/-- The statement is executed: it compiles, and its parameters can be bound.  Otherwise `execute`
raises. -/
def Stmt.Succeeds (P : Platform) (stmt : Stmt) : Prop := stmt.Compiles ∧ stmt.Binds P

instance (P : Platform) : DecidablePred (Stmt.Succeeds P) :=
  fun _ => inferInstanceAs (Decidable (_ ∧ _))

/-- The deduplication of a MERGE keeps the last source row of every key. -/
def Stmt.KeepsLast (P : Platform) (o : RowOrder) : Stmt → Prop
  | .merge sfTable pk allCols rows =>
    RowNumbering.KeepsLast (keyOf pk) o (sourceRows P sfTable allCols rows)
  | _ => True

/-- The row orders that number the last source row of every MERGE first. -/
def lastFirstTie : Stmt → RowOrder
  | .merge _ _ _ rows => lastFirst rows.length
  | _ => lastFirst 0

theorem keepsLast_lastFirstTie (P : Platform) (stmt : Stmt) :
    stmt.KeepsLast P (lastFirstTie stmt) := by
  cases stmt with
  | merge sfTable pk allCols rows =>
    have hlen : rows.length = (sourceRows P sfTable allCols rows).length :=
      (List.length_map _).symm
    show RowNumbering.KeepsLast (keyOf pk) (lastFirst rows.length) _
    rw [hlen]
    exact keepsLast_lastFirst (keyOf pk) _
  | delete sfTable pk key => exact trivial
  | insert sfTable allCols rows => exact trivial

/-! ### Statements at a key -/

/-- What a MERGE does at key `k`. -/
def mergeOp (pk allCols : List String) (src : Table) (k : List PyVal) : RowOp String PyVal :=
  match src.find? (fun s => keyOf pk s = k) with
  | some s => .assign fun c => if c ∈ allCols then some (s c) else none
  | none => .keep

/-- What a DELETE does at key `k`. -/
def deleteOp (key k : List PyVal) : RowOp String PyVal :=
  if SqlEq k key then .remove else .keep

/-- What a statement does at key `k` of table `t`. -/
def Stmt.opAt (P : Platform) (tie : Stmt → RowOrder) (t : String) (k : List PyVal) :
    Stmt → RowOp String PyVal
  | .merge sfTable pk allCols rows =>
    if sfTable = t then
      mergeOp pk allCols (qualifyFirst (keyOf pk) (tie (.merge sfTable pk allCols rows))
        (sourceRows P sfTable allCols rows)) k
    else .keep
  | .delete sfTable pk key =>
    if sfTable = t then deleteOp (boundKey P sfTable pk key) k else .keep
  | .insert _ _ _ => .keep

/-- The statement writes `t` by the key columns of `t`, with non-null keys, or not at all. -/
def Stmt.KeyedOn (P : Platform) (t : String) : Stmt → Prop
  | .merge sfTable pk allCols rows => sfTable = t →
    pk = pkOf t ∧ ∀ s ∈ sourceRows P sfTable allCols rows, PyVal.none ∉ keyOf pk s
  | .delete sfTable pk _ => sfTable = t → pk = pkOf t
  | .insert sfTable _ _ => sfTable ≠ t

/-! ### The view of a MERGE and of a DELETE -/

theorem keyOf_updateRow (pk allCols : List String) (t s : SfRow) :
    keyOf pk (updateRow pk allCols t s) = keyOf pk t := by
  rw [keyOf, keyOf]
  apply List.map_congr_left
  intro c hc
  rw [updateRow, if_neg (by simp [hc])]

/-- A source row has nothing outside the column list, so inserting it loses nothing. -/
theorem insertRow_of_listed {allCols : List String} {s : SfRow}
    (h : ∀ c, c ∉ allCols → s c = .none) : insertRow allCols s = s := by
  funext c
  rw [insertRow]
  split
  · rfl
  · exact (h c ‹_›).symm

theorem sourceRow_of_notMem (P : Platform) (sfTable : String) {allCols : List String}
    (params : List PyVal) {c : String} (h : c ∉ allCols) :
    sourceRow P sfTable allCols params c = .none := by
  have hnone : find c (allCols.zip params) = none := by
    rw [find_eq_none_iff]
    intro hmem
    obtain ⟨p, hp, rfl⟩ := List.mem_map.mp hmem
    exact h (List.of_mem_zip hp).1
  rw [sourceRow, hnone]

theorem insertRow_eq_overlay (allCols : List String) (s : SfRow) :
    insertRow allCols s =
      overlay (fun c => if c ∈ allCols then some (s c) else none) (fun _ => .none) := by
  funext c
  rw [insertRow, overlay]
  split <;> rfl

/-- Updating a row of the same key assigns the whole column list. -/
theorem updateRow_eq_overlay {pk allCols : List String} {t s : SfRow}
    (h : keyOf pk t = keyOf pk s) :
    updateRow pk allCols t s = overlay (fun c => if c ∈ allCols then some (s c) else none) t := by
  funext c
  rw [updateRow, overlay]
  by_cases hc : c ∈ allCols
  · by_cases hpk : c ∈ pk
    · have hsame : t c = s c := by
        rw [keyOf, keyOf, List.map_inj_left] at h
        exact h c hpk
      rw [if_neg (by simp [hpk]), if_pos hc, Option.getD_some, hsame]
    · rw [if_pos (by simp [hc, hpk]), if_pos hc, Option.getD_some]
  · rw [if_neg (by simp [hc]), if_neg hc, Option.getD_none]

section Merge

variable {pk allCols : List String} {src : Table} {k : List PyVal}
  (hnull : ∀ s ∈ src, keyOf pk s = k → PyVal.none ∉ k) (t : Table)

include hnull

/-- The target rows of a key take the columns of the source row of that key. -/
theorem rowsAt_updated :
    rowsAt (keyOf pk) k (t.map fun r =>
        match src.find? (fun s => SqlEq (keyOf pk r) (keyOf pk s)) with
        | some s => updateRow pk allCols r s
        | none => r) =
      (rowsAt (keyOf pk) k t).map fun r =>
        match src.find? (fun s => keyOf pk s = k) with
        | some s => overlay (fun c => if c ∈ allCols then some (s c) else none) r
        | none => r := by
  rw [rowsAt_map]
  · apply List.map_congr_left
    intro r hr
    have hk : keyOf pk r = k := ((mem_rowsAt _).mp hr).2
    have hmatch : src.find? (fun s => SqlEq (keyOf pk r) (keyOf pk s)) =
        src.find? (fun s => keyOf pk s = k) := by
      apply List.find?_congr
      intro s hs
      rw [decide_eq_decide, hk]
      constructor
      · exact fun h => h.1.symm
      · exact fun h => ⟨h.symm, hnull s hs h⟩
    rw [hmatch]
    cases hs : src.find? (fun s => keyOf pk s = k) with
    | none => rfl
    | some s =>
      have hsk : keyOf pk s = k := by simpa using List.find?_some hs
      exact updateRow_eq_overlay (hk.trans hsk.symm)
  · intro r
    split
    · exact keyOf_updateRow pk allCols r _
    · rfl

/-- The source row of a key is inserted when the target has no row of that key. -/
theorem rowsAt_inserted (hlisted : ∀ s ∈ src, ∀ c, c ∉ allCols → s c = .none) :
    rowsAt (keyOf pk) k ((src.filter fun s =>
        ¬ ∃ r ∈ t, SqlEq (keyOf pk r) (keyOf pk s)).map (insertRow allCols)) =
      if rowsAt (keyOf pk) k t = [] then (rowsAt (keyOf pk) k src).map (insertRow allCols)
      else [] := by
  have hmatched : ∀ s ∈ src, keyOf pk s = k →
      ((∃ r ∈ t, SqlEq (keyOf pk r) (keyOf pk s)) ↔ rowsAt (keyOf pk) k t ≠ []) := by
    intro s hs hsk
    have heq : ∀ r, SqlEq (keyOf pk r) (keyOf pk s) ↔ keyOf pk r = k := fun r => by
      rw [hsk]
      exact sqlEq_iff (hnull s hs hsk)
    rw [Ne, List.eq_nil_iff_forall_not_mem, not_forall_not]
    simp only [heq, mem_rowsAt]
  have hsame : ∀ l : Table, l ⊆ src → l.map (insertRow allCols) = l := fun l hl =>
    (List.map_congr_left fun s hs => insertRow_of_listed (hlisted s (hl hs))).trans l.map_id
  rw [hsame _ (fun s hs => List.mem_of_mem_filter hs),
    hsame _ (fun s hs => ((mem_rowsAt (keyOf pk)).mp hs).1)]
  by_cases hempty : rowsAt (keyOf pk) k t = []
  · rw [if_pos hempty, rowsAt, rowsAt, List.filter_filter]
    apply List.filter_congr
    intro s hs
    by_cases hsk : keyOf pk s = k
    · have hfree : ¬ ∃ r ∈ t, SqlEq (keyOf pk r) (keyOf pk s) :=
        fun h => (hmatched s hs hsk).mp h hempty
      rw [decide_eq_true hfree, Bool.and_true]
    · rw [decide_eq_false hsk, Bool.false_and]
  · rw [if_neg hempty, rowsAt, List.filter_filter, List.filter_eq_nil_iff]
    intro s hs
    by_cases hsk : keyOf pk s = k
    · rw [decide_eq_false (not_not_intro ((hmatched s hs hsk).mpr hempty)), Bool.and_false]
      exact Bool.false_ne_true
    · rw [decide_eq_false hsk, Bool.false_and]
      exact Bool.false_ne_true

/-- **A MERGE at a key**, its source having unique keys. -/
theorem rowsAt_mergeInto (hlisted : ∀ s ∈ src, ∀ c, c ∉ allCols → s c = .none)
    (hunique : UniqueKeys (keyOf pk) src) :
    rowsAt (keyOf pk) k (mergeInto pk allCols src t) =
      (mergeOp pk allCols src k).act .none (rowsAt (keyOf pk) k t) := by
  rw [mergeInto, rowsAt_append, rowsAt_updated hnull, rowsAt_inserted hnull t hlisted,
    rowsAt_of_uniqueKeys (keyOf pk) hunique, mergeOp]
  cases src.find? (fun s => keyOf pk s = k) with
  | none => simp [RowOp.act]
  | some s =>
    by_cases hempty : rowsAt (keyOf pk) k t = []
    · rw [hempty, if_pos rfl, RowOp.act, seed]
      simp [insertRow_eq_overlay]
    · rw [if_neg hempty, List.append_nil, RowOp.act, seed_of_ne_nil _ hempty]

end Merge

/-- **A DELETE at a key.** -/
theorem rowsAt_deleteFrom (pk : List String) (key : List PyVal) (t : Table) (k : List PyVal) :
    rowsAt (keyOf pk) k (deleteFrom pk key t) =
      (deleteOp key k).act .none (rowsAt (keyOf pk) k t) := by
  rw [deleteFrom, deleteOp, rowsAt, rowsAt, List.filter_filter]
  by_cases h : SqlEq k key
  · rw [if_pos h, RowOp.act, List.filter_eq_nil_iff]
    intro r _
    simp only [Bool.and_eq_true, decide_eq_true_eq, not_and]
    rintro rfl hnot
    exact hnot h
  · rw [if_neg h, RowOp.act]
    apply List.filter_congr
    intro r _
    by_cases hk : keyOf pk r = k
    · simp [hk, h]
    · simp [hk]

/-! ### The bridge -/

theorem sourceRows_listed (P : Platform) (sfTable : String) (allCols : List String)
    (params : List (List PyVal)) :
    ∀ s ∈ sourceRows P sfTable allCols params, ∀ c, c ∉ allCols → s c = .none := by
  intro s hs c hc
  obtain ⟨p, -, rfl⟩ := List.mem_map.mp hs
  exact sourceRow_of_notMem P sfTable p hc

/-- **A MERGE statement at a key** that its source does not leave `NULL`: the survivor of the key is
assigned. -/
theorem rowsAt_onTable_merge {P : Platform} (o : RowOrder) (sfTable : String) (pk allCols : List String)
    (params : List (List PyVal)) {k : List PyVal}
    (hnull : ∀ s ∈ sourceRows P sfTable allCols params, keyOf pk s = k → PyVal.none ∉ k) (t : Table) :
    rowsAt (keyOf pk) k ((Stmt.merge sfTable pk allCols params).onTable P o t) =
      (mergeOp pk allCols (qualifyFirst (keyOf pk) o (sourceRows P sfTable allCols params)) k).act
        .none (rowsAt (keyOf pk) k t) :=
  rowsAt_mergeInto (fun s hs => hnull s (mem_of_mem_qualifyFirst _ _ hs)) t
    (fun s hs => sourceRows_listed P sfTable allCols params s (mem_of_mem_qualifyFirst _ _ hs))
    (nodup_keys_qualifyFirst _ _ _)

/-- **One statement at a key.** -/
theorem rowsAt_onTable {P : Platform} {tie : Stmt → RowOrder} {stmt : Stmt} {t : String}
    (h : stmt.KeyedOn P t) (htable : stmt.table = t) (rows : Table) (k : List PyVal) :
    rowsAt (keyOf (pkOf t)) k (stmt.onTable P (tie stmt) rows) =
      (stmt.opAt P tie t k).act .none (rowsAt (keyOf (pkOf t)) k rows) := by
  cases stmt with
  | merge sfTable pk allCols params =>
    obtain ⟨hpk, hnull⟩ := h htable
    rw [Stmt.opAt, if_pos (show sfTable = t from htable), Stmt.onTable, ← hpk]
    exact rowsAt_onTable_merge _ sfTable pk allCols params (fun s hs hk => hk ▸ hnull s hs) rows
  | delete sfTable pk key =>
    have hpk : pk = pkOf t := h htable
    rw [Stmt.opAt, if_pos (show sfTable = t from htable), Stmt.onTable, ← hpk]
    exact rowsAt_deleteFrom pk _ rows k
  | insert sfTable allCols params => exact absurd htable h

/-- A statement that names another table does nothing. -/
theorem opAt_of_table_ne {P : Platform} {tie : Stmt → RowOrder} {stmt : Stmt} {t : String}
    (h : stmt.table ≠ t) (k : List PyVal) : stmt.opAt P tie t k = .keep := by
  cases stmt with
  | merge sfTable pk allCols params => exact if_neg h
  | delete sfTable pk key => exact if_neg h
  | insert sfTable allCols params => rfl

/-- One statement on the store, at a key of table `t`. -/
theorem rowsAt_apply {P : Platform} {tie : Stmt → RowOrder} {stmt : Stmt} {t : String}
    (h : stmt.KeyedOn P t) (k : List PyVal) (st : Store) :
    rowsAt (keyOf (pkOf t)) k (stmt.apply P (tie stmt) st t) =
      (stmt.opAt P tie t k).act .none (rowsAt (keyOf (pkOf t)) k (st t)) := by
  by_cases htable : stmt.table = t
  · rw [Stmt.apply, htable, Function.update_self, rowsAt_onTable h htable]
  · rw [Stmt.apply, Function.update_of_ne (Ne.symm htable), opAt_of_table_ne htable]
    rfl

/-- **Executing statements is executing their row operations**, at every key. -/
theorem rowsAt_execute {P : Platform} {tie : Stmt → RowOrder} {t : String} {stmts : List Stmt}
    (h : ∀ stmt ∈ stmts, stmt.KeyedOn P t) (st : Store) (k : List PyVal) :
    rowsAt (keyOf (pkOf t)) k (execute P tie stmts st t) =
      runOps .none (stmts.map (Stmt.opAt P tie t k)) (rowsAt (keyOf (pkOf t)) k (st t)) :=
  Replay.run_hom (fun st : Store => rowsAt (keyOf (pkOf t)) k (st t)) (Stmt.opAt P tie t k)
    (fun stmt hstmt st => rowsAt_apply (h stmt hstmt) k st) st

/-- Only the statements that name a table matter for it. -/
theorem runOps_filter_table {P : Platform} {tie : Stmt → RowOrder} {t : String} (k : List PyVal)
    (stmts : List Stmt) (rows : List SfRow) :
    runOps .none ((stmts.filter (·.table = t)).map (Stmt.opAt P tie t k)) rows =
      runOps .none (stmts.map (Stmt.opAt P tie t k)) rows := by
  induction stmts generalizing rows with
  | nil => rfl
  | cons stmt stmts ih =>
    by_cases h : stmt.table = t
    · rw [List.filter_cons_of_pos (by simpa using h), List.map_cons, List.map_cons]
      exact ih _
    · rw [List.filter_cons_of_neg (by simpa using h), List.map_cons, opAt_of_table_ne h]
      exact ih _

/-- **A table after some statements**: only those that name it have been executed on it. -/
theorem execute_table (P : Platform) (tie : Stmt → RowOrder) (stmts : List Stmt) (st : Store)
    (t : String) :
    execute P tie stmts st t =
      Replay.run (fun stmt => stmt.onTable P (tie stmt)) (stmts.filter (·.table = t)) (st t) := by
  induction stmts generalizing st with
  | nil => rfl
  | cons stmt stmts ih =>
    show execute P tie stmts (stmt.apply P (tie stmt) st) t = _
    rw [ih, Stmt.apply]
    by_cases h : stmt.table = t
    · subst h
      rw [Function.update_self, List.filter_cons_of_pos (by simp)]
      rfl
    · rw [Function.update_of_ne (Ne.symm h), List.filter_cons_of_neg (by simpa using h)]

end PgSnowflakeCdc
