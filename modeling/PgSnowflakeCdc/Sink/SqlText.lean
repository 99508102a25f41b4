import PgSnowflakeCdc.Foundations.FormatString
import PgSnowflakeCdc.Sink.Statement

/-!
# The SQL texts of the sink (`snowflake_sink.py`, SQL builders)

The texts as the builders put them together, and the statements they are meant to be.

* `buildBatchMergeSql`, `insertHistorySql`, `deleteSql` — the texts, with a `%s` for each parameter;
* `Merge` — a MERGE as data, over what stands at its placeholders, and its text;
* `compiles_iff_wellFormed` — a MERGE statement compiles exactly when its text is well formed;
* `mergeSql_wellFormed_iff` — **the MERGE text is well formed exactly when some column is no key column
  and none is `_LOADED_AT`.**
-/

namespace PgSnowflakeCdc

open OrderedDict FormatString

/-! ### The builders -/

/-- `_SF_DATABASE` and `_SF_SCHEMA`. -/
structure Target where
  database : String
  schema : String

/-- `f"{_SF_DATABASE}.{_SF_SCHEMA}.{sf_table}"`. -/
def Target.qualified (tgt : Target) (sfTable : String) : String :=
  tgt.database ++ "." ++ tgt.schema ++ "." ++ sfTable

/-- `_build_merge_row_select`. -/
def buildMergeRowSelect (P : Platform) (allCols : List String) : String :=
  ", ".intercalate (allCols.map fun c =>
    if c ∈ jsonbSfCols P then "PARSE_JSON(%s) AS " ++ c else "%s AS " ++ c)

/-- `_build_batch_merge_sql`; `none` is the `IndexError` of `pk_cols[0]`. -/
def buildBatchMergeSql (P : Platform) (tgt : Target) (sfTable : String) (pkCols allCols : List String)
    (nRows : ℕ) : Option String :=
  pkCols.head?.map fun nonPkOrder =>
    let nonPk := allCols.filter (· ∉ pkCols)
    let rowSel := buildMergeRowSelect P allCols
    let unionSrc := "\n  UNION ALL\n  SELECT ".intercalate (List.replicate nRows rowSel)
    let pkPart := ", ".intercalate pkCols
    let dedupSrc :=
      "SELECT * FROM (SELECT " ++ unionSrc ++ ") "
        ++ "QUALIFY ROW_NUMBER() OVER (PARTITION BY " ++ pkPart ++ " ORDER BY " ++ nonPkOrder
        ++ " DESC) = 1"
    let on := " AND ".intercalate (pkCols.map fun c => "t." ++ c ++ " = s." ++ c)
    let updSet := ", ".intercalate (nonPk.map fun c => "t." ++ c ++ " = s." ++ c)
    let updSet := updSet ++ ", t._LOADED_AT = CURRENT_TIMESTAMP()"
    let insCols := ", ".intercalate allCols ++ ", _LOADED_AT"
    let insVals := ", ".intercalate (allCols.map fun c => "s." ++ c) ++ ", CURRENT_TIMESTAMP()"
    "MERGE INTO " ++ tgt.qualified sfTable ++ " AS t "
      ++ "USING (" ++ dedupSrc ++ ") AS s "
      ++ "ON " ++ on ++ " "
      ++ "WHEN MATCHED THEN UPDATE SET " ++ updSet ++ " "
      ++ "WHEN NOT MATCHED THEN INSERT (" ++ insCols ++ ") VALUES (" ++ insVals ++ ")"

/-- `_build_history_row_select`. -/
def buildHistoryRowSelect (P : Platform) (allCols : List String) : String :=
  ", ".intercalate (allCols.map fun c => if c ∈ jsonbSfCols P then "PARSE_JSON(%s)" else "%s")
    ++ ", CURRENT_TIMESTAMP()"

/-- The text `_insert_history` executes for `nRows` rows. -/
def insertHistorySql (P : Platform) (tgt : Target) (sfHistTable : String) (allCols : List String)
    (nRows : ℕ) : String :=
  let colList := ", ".intercalate allCols ++ ", _LOADED_AT"
  let rowSelect := buildHistoryRowSelect P allCols
  let unionBody := "\nUNION ALL\nSELECT ".intercalate (List.replicate nRows rowSelect)
  "INSERT INTO " ++ tgt.qualified sfHistTable ++ " (" ++ colList ++ ") SELECT " ++ unionBody

/-- The text `_delete_current` executes for every event. -/
def deleteSql (tgt : Target) (sfTable : String) (pkCols : List String) : String :=
  let whereClause := " AND ".intercalate (pkCols.map fun c => c ++ " = %s")
  "DELETE FROM " ++ tgt.qualified sfTable ++ " WHERE " ++ whereClause

/-- `[v for row in rows for v in [row.get(c) for c in all_cols]]`. -/
def flatParams (allCols : List String) (rows : List Row) : List PyVal :=
  rows.flatMap fun row => allCols.map (cell row)

/-- The text a statement is executed with. -/
def Stmt.sql (P : Platform) (tgt : Target) : Stmt → Option String
  | .merge sfTable pk allCols rows => buildBatchMergeSql P tgt sfTable pk allCols rows.length
  | .delete sfTable pk _ => some (deleteSql tgt sfTable pk)
  | .insert sfTable allCols rows => some (insertHistorySql P tgt sfTable allCols rows.length)

/-- The parameters it is executed with. -/
def Stmt.params : Stmt → List PyVal
  | .merge _ _ _ rows => rows.flatten
  | .delete _ _ key => key
  | .insert _ _ rows => rows.flatten

/-! ### Expressions -/

/-- An item of a select list, a SET or a VALUES clause, over what it reads. -/
inductive Expr (α : Type) where
  | value (a : α) : Expr α
  | parseJson (a : α) : Expr α
  | currentTimestamp : Expr α
deriving DecidableEq

/-- The text of an expression, from the texts of what it reads. -/
def Expr.text {α : Type} (lit : α → String) : Expr α → String
  | .value a => lit a
  | .parseJson a => "PARSE_JSON(" ++ lit a ++ ")"
  | .currentTimestamp => "CURRENT_TIMESTAMP()"

/-- The expression for column `c`: `PARSE_JSON` for a JSONB column. -/
def columnExpr {α : Type} (P : Platform) (c : String) (a : α) : Expr α :=
  if c ∈ jsonbSfCols P then .parseJson a else .value a

theorem text_columnExpr {α : Type} (P : Platform) (lit : α → String) (c : String) (a : α) :
    (columnExpr P c a).text lit =
      if c ∈ jsonbSfCols P then "PARSE_JSON(" ++ lit a ++ ")" else lit a := by
  rw [columnExpr]
  split
  · rfl
  · rfl

/-- What stands at a placeholder before parameters are bound. -/
def placeholder : Unit → String := fun _ => "%s"

/-- `_LOADED_AT`, as every statement writes it. -/
def loadedAt {α : Type} : String × Expr α := ("_LOADED_AT", .currentTimestamp)

/-! ### The MERGE -/

/-- A MERGE, over what stands at its placeholders. -/
structure Merge (α : Type) where
  table : String
  /-- The SELECTs of the source: expressions with the names they are given. -/
  source : List (List (Expr α × String))
  partitionBy : List String
  orderBy : String
  /-- `t.c = s.d`. -/
  on : List (String × String)
  /-- `t.c = …`, over the columns of `s`. -/
  set : List (String × Expr String)
  /-- The columns of the INSERT, each with its item of VALUES. -/
  insert : List (String × Expr String)

/-- `SELECT e AS c, …` without its `SELECT`. -/
def selectText {α : Type} (lit : α → String) (items : List (Expr α × String)) : String :=
  ", ".intercalate (items.map fun p => p.1.text lit ++ " AS " ++ p.2)

/-- The text of a MERGE from the texts of its clauses. -/
def mergeText (table union partition order on set columns values : String) : String :=
  "MERGE INTO " ++ table ++ " AS t "
    ++ "USING (" ++ ("SELECT * FROM (SELECT " ++ union ++ ") "
        ++ "QUALIFY ROW_NUMBER() OVER (PARTITION BY " ++ partition ++ " ORDER BY " ++ order
        ++ " DESC) = 1") ++ ") AS s "
    ++ "ON " ++ on ++ " "
    ++ "WHEN MATCHED THEN UPDATE SET " ++ set ++ " "
    ++ "WHEN NOT MATCHED THEN INSERT (" ++ columns ++ ") VALUES (" ++ values ++ ")"

/-- The text of a MERGE. -/
def Merge.text {α : Type} (lit : α → String) (m : Merge α) : String :=
  mergeText m.table
    ("\n  UNION ALL\n  SELECT ".intercalate (m.source.map (selectText lit)))
    (", ".intercalate m.partitionBy) m.orderBy
    (" AND ".intercalate (m.on.map fun p => "t." ++ p.1 ++ " = s." ++ p.2))
    (", ".intercalate (m.set.map fun p => "t." ++ p.1 ++ " = " ++ p.2.text ("s." ++ ·)))
    (", ".intercalate (m.insert.map Prod.fst))
    (", ".intercalate (m.insert.map fun p => p.2.text ("s." ++ ·)))

/-- The MERGE of a schema, with `orderBy` its first key column. -/
def batchMerge {α : Type} (table : String) (pk allCols : List String) (orderBy : String)
    (rows : List (List (Expr α × String))) : Merge α where
  table := table
  source := rows
  partitionBy := pk
  orderBy := orderBy
  on := pk.map fun c => (c, c)
  set := (allCols.filter (· ∉ pk)).map (fun c => (c, .value c)) ++ [loadedAt]
  insert := allCols.map (fun c => (c, .value c)) ++ [loadedAt]

/-- Two MERGEs whose clauses have the same lengths have texts of the same length. -/
theorem length_mergeText {table union partition order : String} {on on' set set' columns columns' values
    values' : String} (hon : on.length = on'.length) (hset : set.length = set'.length)
    (hcolumns : columns.length = columns'.length) (hvalues : values.length = values'.length) :
    (mergeText table union partition order on set columns values).length =
      (mergeText table union partition order on' set' columns' values').length := by
  unfold mergeText
  simp only [String.length_append, hon, hset, hcolumns, hvalues]

/-- Text put before the SET clause makes the statement longer by as much. -/
theorem length_mergeText_set (table union partition order on set columns values s : String) :
    (mergeText table union partition order on (s ++ set) columns values).length =
      (mergeText table union partition order on set columns values).length + s.length := by
  unfold mergeText
  simp only [String.length_append]
  ac_rfl

/-! ### What the builder writes -/

/-- A SELECT that gives every listed column an expression. -/
theorem selectText_listed {α : Type} (lit : α → String) (allCols : List String)
    (e : String → Expr α) :
    selectText lit (allCols.map fun c => (e c, c)) =
      ", ".intercalate (allCols.map fun c => (e c).text lit ++ " AS " ++ c) := by
  rw [selectText, List.map_map]
  rfl

theorem buildMergeRowSelect_eq (P : Platform) (allCols : List String) :
    buildMergeRowSelect P allCols =
      selectText placeholder (allCols.map fun c => (columnExpr P c (), c)) := by
  rw [buildMergeRowSelect, selectText_listed]
  congr 1
  apply List.map_congr_left
  intro c _
  rw [text_columnExpr]
  split
  · rfl
  · rfl

/-- The SET clause as the builder writes it: what stands for `_LOADED_AT` begins with a comma. -/
def builtSet (pk allCols : List String) : String :=
  ", ".intercalate ((allCols.filter (· ∉ pk)).map fun c => "t." ++ c ++ " = s." ++ c)
    ++ ", t._LOADED_AT = CURRENT_TIMESTAMP()"

/-- The text the builder writes around the rows of the source and the SET clause. -/
def builtAround (tgt : Target) (sfTable : String) (pk allCols : List String) (orderBy union set : String) :
    String :=
  mergeText (tgt.qualified sfTable) union (", ".intercalate pk) orderBy
    (" AND ".intercalate (pk.map fun c => "t." ++ c ++ " = s." ++ c)) set
    (", ".intercalate allCols ++ ", _LOADED_AT")
    (", ".intercalate (allCols.map fun c => "s." ++ c) ++ ", CURRENT_TIMESTAMP()")

theorem buildBatchMergeSql_eq (P : Platform) (tgt : Target) (sfTable : String)
    (pk allCols : List String) (nRows : ℕ) :
    buildBatchMergeSql P tgt sfTable pk allCols nRows =
      pk.head?.map fun k => builtAround tgt sfTable pk allCols k
        ("\n  UNION ALL\n  SELECT ".intercalate (List.replicate nRows (buildMergeRowSelect P allCols)))
        (builtSet pk allCols) :=
  rfl

/-- A joined text with one more item, behind at least one. -/
theorem join_concat (sep : String) {l : List String} (h : l ≠ []) (s : String) :
    sep.intercalate (l ++ [s]) = sep.intercalate l ++ (sep ++ s) := by
  rw [String.intercalate_append_of_ne_nil h (List.cons_ne_nil s []), String.intercalate_singleton,
    String.append_assoc]

/-- The SET clause of the MERGE that is meant, its items joined. -/
def meantSet (pk allCols : List String) : String :=
  ", ".intercalate ((allCols.filter (· ∉ pk)).map (fun c => "t." ++ c ++ " = s." ++ c)
    ++ ["t._LOADED_AT = CURRENT_TIMESTAMP()"])

theorem text_batchMerge {α : Type} (lit : α → String) (table : String) (pk allCols : List String)
    (orderBy : String) (rows : List (List (Expr α × String))) :
    (batchMerge table pk allCols orderBy rows).text lit =
      mergeText table ("\n  UNION ALL\n  SELECT ".intercalate (rows.map (selectText lit)))
        (", ".intercalate pk) orderBy
        (" AND ".intercalate (pk.map fun c => "t." ++ c ++ " = s." ++ c))
        (meantSet pk allCols)
        (", ".intercalate (allCols ++ ["_LOADED_AT"]))
        (", ".intercalate (allCols.map (fun c => "s." ++ c) ++ ["CURRENT_TIMESTAMP()"])) := by
  have hassign : ∀ c : String, "t." ++ c ++ " = " ++ ("s." ++ c) = "t." ++ c ++ " = s." ++ c := by
    intro c
    have hlit : " = " ++ "s." = " = s." := rfl
    rw [← hlit, ← String.append_assoc, ← String.append_assoc]
  simp only [batchMerge, Merge.text, meantSet, loadedAt, Expr.text, List.map_append, List.map_map,
    Function.comp_def, List.map_cons, List.map_nil, List.map_id', hassign]
  rfl

/-- With a column that is no key column the SET clause is the one that is meant. -/
theorem builtSet_eq {pk allCols : List String} (h : ∃ c ∈ allCols, c ∉ pk) :
    builtSet pk allCols = meantSet pk allCols := by
  obtain ⟨c, hc, hpk⟩ := h
  have hne : (allCols.filter (· ∉ pk)).map (fun c => "t." ++ c ++ " = s." ++ c) ≠ [] :=
    List.ne_nil_of_mem (List.mem_map_of_mem (List.mem_filter.mpr ⟨hc, by simpa using hpk⟩))
  rw [meantSet, join_concat ", " hne]
  rfl

/-- With key columns only it begins with a comma. -/
theorem builtSet_of_subset {pk allCols : List String} (h : allCols ⊆ pk) :
    builtSet pk allCols = ", " ++ meantSet pk allCols := by
  have hnil : allCols.filter (· ∉ pk) = [] := by
    rw [List.filter_eq_nil_iff]
    intro c hc
    simpa using h hc
  rw [builtSet, meantSet, hnil]
  rfl

/-- The MERGE that is meant, before parameters are bound. -/
def meantMerge (P : Platform) (tgt : Target) (sfTable : String) (pk allCols : List String)
    (orderBy : String) (nRows : ℕ) : Merge Unit :=
  batchMerge (tgt.qualified sfTable) pk allCols orderBy
    (List.replicate nRows (allCols.map fun c => (columnExpr P c (), c)))

/-- Its text is what the builder writes, but for the SET clause. -/
theorem text_meantMerge (P : Platform) (tgt : Target) (sfTable : String) (pk : List String)
    {allCols : List String} (orderBy : String) (nRows : ℕ) (hne : allCols ≠ []) :
    (meantMerge P tgt sfTable pk allCols orderBy nRows).text placeholder =
      builtAround tgt sfTable pk allCols orderBy
        ("\n  UNION ALL\n  SELECT ".intercalate (List.replicate nRows (buildMergeRowSelect P allCols)))
        (meantSet pk allCols) := by
  have hvals : allCols.map (fun c => "s." ++ c) ≠ [] := fun hnil => hne (List.map_eq_nil_iff.mp hnil)
  rw [meantMerge, text_batchMerge, join_concat ", " hne, join_concat ", " hvals, List.map_replicate,
    ← buildMergeRowSelect_eq]
  rfl

/-- With a column that is no key column the builder writes the MERGE that is meant. -/
theorem buildBatchMergeSql_of_nonKey (P : Platform) (tgt : Target) (sfTable k : String)
    (ks : List String) {allCols : List String} (nRows : ℕ) (h : ∃ c ∈ allCols, c ∉ k :: ks) :
    buildBatchMergeSql P tgt sfTable (k :: ks) allCols nRows =
      some ((meantMerge P tgt sfTable (k :: ks) allCols k nRows).text placeholder) := by
  have hne : allCols ≠ [] := h.elim fun c hc => List.ne_nil_of_mem hc.1
  rw [text_meantMerge P tgt sfTable (k :: ks) k nRows hne, buildBatchMergeSql_eq, builtSet_eq h]
  rfl

/-- With key columns only its text is longer by a comma and a space. -/
theorem length_buildBatchMergeSql (P : Platform) (tgt : Target) (sfTable k : String)
    (ks : List String) {allCols : List String} (nRows : ℕ) (hne : allCols ≠ [])
    (h : allCols ⊆ k :: ks) {text : String}
    (htext : buildBatchMergeSql P tgt sfTable (k :: ks) allCols nRows = some text) :
    text.length =
      ((meantMerge P tgt sfTable (k :: ks) allCols k nRows).text placeholder).length + 2 := by
  rw [buildBatchMergeSql_eq, builtSet_of_subset h, List.head?_cons, Option.map_some,
    Option.some.injEq] at htext
  rw [← htext, text_meantMerge P tgt sfTable (k :: ks) k nRows hne, builtAround, builtAround,
    length_mergeText_set]
  rfl

/-! ### Well-formedness -/

/-- The MERGE over `allCols` with key `pk`, its items in any order: a source of `nRows` SELECTs, the key
columns equated, every other column assigned once, and every column inserted with its own value. -/
structure Merge.WellFormed (P : Platform) (tgt : Target) (sfTable : String) (pk allCols : List String)
    (nRows : ℕ) (m : Merge Unit) : Prop where
  table : m.table = tgt.qualified sfTable
  source : m.source = List.replicate nRows (allCols.map fun c => (columnExpr P c (), c))
  source_ne_nil : m.source ≠ []
  partitionBy : m.partitionBy = pk
  orderBy : pk.head? = some m.orderBy
  on : m.on.Perm (pk.map fun c => (c, c))
  on_source : ∀ p ∈ m.on, ∀ select ∈ m.source, p.2 ∈ select.map Prod.snd
  set : m.set.Perm ((allCols.filter (· ∉ pk)).map (fun c => (c, .value c)) ++ [loadedAt])
  set_once : (m.set.map Prod.fst).Nodup
  insert : m.insert.Perm (allCols.map (fun c => (c, .value c)) ++ [loadedAt])
  insert_once : (m.insert.map Prod.fst).Nodup

/-- Well-formed MERGEs of a schema have texts of one length. -/
theorem Merge.WellFormed.length_text {P : Platform} {tgt : Target} {sfTable : String}
    {pk allCols : List String} {nRows : ℕ} {m : Merge Unit}
    (h : m.WellFormed P tgt sfTable pk allCols nRows) :
    (m.text placeholder).length =
      ((meantMerge P tgt sfTable pk allCols m.orderBy nRows).text placeholder).length := by
  rw [Merge.text, Merge.text, h.table, h.source, h.partitionBy]
  apply length_mergeText
  · exact length_join_perm " AND " (h.on.map _)
  · exact length_join_perm ", " (h.set.map _)
  · exact length_join_perm ", " (h.insert.map _)
  · exact length_join_perm ", " (h.insert.map _)

/-- Assigned columns are distinct when the listed ones are and none of them is `_LOADED_AT`. -/
theorem nodup_assigned_iff {cols : List String} (hcols : cols.Nodup) :
    ((cols.map (fun c => (c, Expr.value c)) ++ [loadedAt]).map Prod.fst).Nodup ↔
      "_LOADED_AT" ∉ cols := by
  have hfst : (cols.map (fun c => (c, Expr.value c)) ++ [loadedAt]).map Prod.fst =
      cols ++ ["_LOADED_AT"] := by
    rw [List.map_append, List.map_map]
    congr 1
    exact List.map_id' cols
  rw [hfst, ← List.concat_eq_append, List.nodup_concat]
  exact and_iff_left hcols

/-- The MERGE that is meant is well formed. -/
theorem wellFormed_meantMerge (P : Platform) (tgt : Target) (sfTable k : String) {ks allCols : List String}
    {nRows : ℕ} (hcols : allCols.Nodup) (hsub : k :: ks ⊆ allCols) (hrows : 1 ≤ nRows)
    (hloaded : "_LOADED_AT" ∉ allCols) :
    (meantMerge P tgt sfTable (k :: ks) allCols k nRows).WellFormed P tgt sfTable (k :: ks) allCols
      nRows where
  table := rfl
  source := rfl
  source_ne_nil := by
    rw [meantMerge, batchMerge, Ne, List.replicate_eq_nil_iff]
    omega
  partitionBy := rfl
  orderBy := rfl
  on := .refl _
  on_source := by
    intro p hp select hselect
    obtain ⟨c, hc, rfl⟩ := List.mem_map.mp hp
    rw [List.eq_of_mem_replicate hselect, List.map_map]
    exact List.mem_map_of_mem (hsub hc)
  set := .refl _
  set_once := (nodup_assigned_iff (hcols.filter _)).mpr fun h => hloaded (List.mem_of_mem_filter h)
  insert := .refl _
  insert_once := (nodup_assigned_iff hcols).mpr hloaded

/-- **A well-formed MERGE text has a column that is no key column.** -/
theorem exists_nonKey_of_wellFormed {P : Platform} {tgt : Target} {sfTable : String}
    {pk allCols : List String} {nRows : ℕ} (hpk : pk ≠ []) (hsub : pk ⊆ allCols) {m : Merge Unit}
    (hm : m.WellFormed P tgt sfTable pk allCols nRows)
    (htext : buildBatchMergeSql P tgt sfTable pk allCols nRows = some (m.text placeholder)) :
    ∃ c ∈ allCols, c ∉ pk := by
  by_contra hnone
  have hkeys : allCols ⊆ pk := by
    intro c hc
    by_contra hkey
    exact hnone ⟨c, hc, hkey⟩
  cases pk with
  | nil => exact hpk rfl
  | cons k ks =>
      have hne : allCols ≠ [] := List.ne_nil_of_mem (hsub List.mem_cons_self)
      have hlonger := length_buildBatchMergeSql P tgt sfTable k ks nRows hne hkeys htext
      have hk : k = m.orderBy := Option.some.inj hm.orderBy
      rw [hm.length_text, ← hk] at hlonger
      omega

/-- Nor does it list `_LOADED_AT` twice. -/
theorem loadedAt_notMem_of_wellFormed {P : Platform} {tgt : Target} {sfTable : String}
    {pk allCols : List String} {nRows : ℕ} (hcols : allCols.Nodup) {m : Merge Unit}
    (hm : m.WellFormed P tgt sfTable pk allCols nRows) : "_LOADED_AT" ∉ allCols := by
  have hinsert := (hm.insert.map Prod.fst).nodup_iff.mp hm.insert_once
  exact (nodup_assigned_iff hcols).mp hinsert

/-- Otherwise the builder writes a well-formed MERGE. -/
theorem exists_wellFormed_text (P : Platform) (tgt : Target) (sfTable : String)
    {pk allCols : List String} {nRows : ℕ} (hpk : pk ≠ []) (hcols : allCols.Nodup)
    (hsub : pk ⊆ allCols) (hrows : 1 ≤ nRows) (hnonKey : ∃ c ∈ allCols, c ∉ pk)
    (hloaded : "_LOADED_AT" ∉ allCols) :
    ∃ m : Merge Unit, m.WellFormed P tgt sfTable pk allCols nRows
      ∧ buildBatchMergeSql P tgt sfTable pk allCols nRows = some (m.text placeholder) := by
  cases pk with
  | nil => exact absurd rfl hpk
  | cons k ks =>
      exact ⟨meantMerge P tgt sfTable (k :: ks) allCols k nRows,
        wellFormed_meantMerge P tgt sfTable k hcols hsub hrows hloaded,
        buildBatchMergeSql_of_nonKey P tgt sfTable k ks nRows hnonKey⟩

/-- **A MERGE compiles exactly when its text is well formed.** -/
theorem compiles_iff_wellFormed (P : Platform) (tgt : Target) (sfTable : String)
    {pk allCols : List String} {rows : List (List PyVal)} (hpk : pk ≠ []) (hcols : allCols.Nodup)
    (hsub : pk ⊆ allCols) (hrows : rows ≠ []) :
    (Stmt.merge sfTable pk allCols rows).Compiles ↔
      ∃ m : Merge Unit, m.WellFormed P tgt sfTable pk allCols rows.length
        ∧ (Stmt.merge sfTable pk allCols rows).sql P tgt = some (m.text placeholder) := by
  have hpos : 1 ≤ rows.length := List.length_pos_iff.mpr hrows
  constructor
  · rintro ⟨-, hnonKey, hloaded⟩
    exact exists_wellFormed_text P tgt sfTable hpk hcols hsub hpos hnonKey hloaded
  · rintro ⟨m, hm, htext⟩
    exact ⟨hsub, exists_nonKey_of_wellFormed hpk hsub hm htext,
      loadedAt_notMem_of_wellFormed hcols hm⟩

/-- **When the MERGE text is well formed**, for a key among distinct columns and at least one row. -/
theorem mergeSql_wellFormed_iff (P : Platform) (tgt : Target) (sfTable : String)
    {pk allCols : List String} {nRows : ℕ} (hpk : pk ≠ []) (hcols : allCols.Nodup)
    (hsub : pk ⊆ allCols) (hrows : 1 ≤ nRows) :
    (∃ m : Merge Unit, m.WellFormed P tgt sfTable pk allCols nRows
        ∧ buildBatchMergeSql P tgt sfTable pk allCols nRows = some (m.text placeholder))
      ↔ (∃ c ∈ allCols, c ∉ pk) ∧ "_LOADED_AT" ∉ allCols := by
  constructor
  · rintro ⟨m, hm, htext⟩
    exact ⟨exists_nonKey_of_wellFormed hpk hsub hm htext, loadedAt_notMem_of_wellFormed hcols hm⟩
  · rintro ⟨hnonKey, hloaded⟩
    exact exists_wellFormed_text P tgt sfTable hpk hcols hsub hrows hnonKey hloaded

/-- Two devices with a label. -/
theorem mergeSql_wellFormed_devices :
    ∃ m : Merge Unit,
      m.WellFormed .ascii ⟨"ANALYTICS_DEV", "PUBLIC"⟩ "CUSTOMER_DEVICES" ["ID"] ["ID", "LABEL"] 2
      ∧ buildBatchMergeSql .ascii ⟨"ANALYTICS_DEV", "PUBLIC"⟩ "CUSTOMER_DEVICES" ["ID"]
          ["ID", "LABEL"] 2 = some (m.text placeholder) :=
  (mergeSql_wellFormed_iff .ascii ⟨"ANALYTICS_DEV", "PUBLIC"⟩ "CUSTOMER_DEVICES" (by decide) (by decide)
    (by decide) (by decide)).mpr (by decide)

/-- A device with no column but its key: `UPDATE SET , t._LOADED_AT = CURRENT_TIMESTAMP()`. -/
theorem mergeSql_key_only :
    ¬ ∃ m : Merge Unit,
      m.WellFormed .ascii ⟨"ANALYTICS_DEV", "PUBLIC"⟩ "CUSTOMER_DEVICES" ["ID"] ["ID"] 1
      ∧ buildBatchMergeSql .ascii ⟨"ANALYTICS_DEV", "PUBLIC"⟩ "CUSTOMER_DEVICES" ["ID"] ["ID"] 1 =
        some (m.text placeholder) := by
  rintro ⟨m, hm, htext⟩
  exact absurd (exists_nonKey_of_wellFormed (by decide) (by decide) hm htext) (by decide)

end PgSnowflakeCdc
