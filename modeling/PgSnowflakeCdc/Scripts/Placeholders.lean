import PgSnowflakeCdc.Scripts.Backfill
import PgSnowflakeCdc.Sink.SqlText

/-!
# Placeholders and parameters of the bulk statements

The batch MERGE and the history INSERT of `snowflake_sink.py` and the page INSERT of `backfill.py`: each
text repeats a template with `%s` for the columns of a row, and is executed with the rows flattened into
one list of parameters.

* `buildPageInsertSql` — the text of the backfill script;
* `InsertSelect`, `InsertValues` — an INSERT as data: its text, and the column in which each of its
  expressions ends;
* `LinesUp` — one placeholder for each row and column, filled row by row;
* `bulk_placeholders` — **the three statements line up.**
-/

namespace PgSnowflakeCdc

open OrderedDict FormatString

/-! ### The backfill script -/

/-- `_VARIANT_SF_COLS`; the script's own `_JSONB_COLS` is that of the sink. -/
def variantSfCols (P : Platform) : List String := jsonbCols.map (pgColToSf P)

/-- `_build_page_insert_sql`. -/
def buildPageInsertSql (P : Platform) (tgt : Target) (sfTable : String) (allCols : List String)
    (nRows : ℕ) : String :=
  let colsClause := ", ".intercalate allCols ++ ", _LOADED_AT"
  let selectParts :=
    (allCols.zipIdx 1).map (fun p =>
      if p.1 ∈ variantSfCols P then "PARSE_JSON($" ++ toString p.2 ++ ")" else "$" ++ toString p.2)
    ++ ["CURRENT_TIMESTAMP()"]
  let selectClause := ", ".intercalate selectParts
  let rowTpl := "(" ++ ", ".intercalate (allCols.map fun _ => "%s") ++ ")"
  let valuesClause := ", ".intercalate (List.replicate nRows rowTpl)
  "INSERT INTO " ++ tgt.qualified sfTable ++ " (" ++ colsClause ++ ") "
    ++ "SELECT " ++ selectClause ++ " FROM VALUES " ++ valuesClause

/-! ### The INSERTs -/

/-- `INSERT INTO t (c, …) SELECT e, … UNION ALL SELECT …`. -/
structure InsertSelect (α : Type) where
  table : String
  columns : List String
  selects : List (List (Expr α))
  width : ∀ items ∈ selects, items.length = columns.length

def InsertSelect.text {α : Type} (q : InsertSelect α) (lit : α → String) : String :=
  "INSERT INTO " ++ q.table ++ " (" ++ ", ".intercalate q.columns ++ ") SELECT "
    ++ "\nUNION ALL\nSELECT ".intercalate
      (q.selects.map fun items => ", ".intercalate (items.map (Expr.text lit)))

/-- The rows inserted: every column with its expression. -/
def InsertSelect.outputs {α : Type} (q : InsertSelect α) : List (List (String × Expr α)) :=
  q.selects.map fun items => q.columns.zip items

/-- `INSERT INTO t (c, …) SELECT e, … FROM VALUES (v, …), …`, with `$i` for the columns of VALUES. -/
structure InsertValues (α : Type) where
  table : String
  columns : List String
  /-- The number of columns of VALUES. -/
  arity : ℕ
  items : List (Expr (Fin arity))
  width : items.length = columns.length
  values : List (Fin arity → α)

def InsertValues.text {α : Type} (q : InsertValues α) (lit : α → String) : String :=
  "INSERT INTO " ++ q.table ++ " (" ++ ", ".intercalate q.columns ++ ") "
    ++ "SELECT " ++ ", ".intercalate (q.items.map (Expr.text fun i => "$" ++ toString (i.val + 1)))
    ++ " FROM VALUES "
    ++ ", ".intercalate (q.values.map fun vs =>
      "(" ++ ", ".intercalate (List.ofFn fun i => lit (vs i)) ++ ")")

/-- An expression over other things. -/
def Expr.map {α β : Type} (f : α → β) : Expr α → Expr β
  | .value a => .value (f a)
  | .parseJson a => .parseJson (f a)
  | .currentTimestamp => .currentTimestamp

/-- The rows inserted: every column with its expression, read at the row of VALUES. -/
def InsertValues.outputs {α : Type} (q : InsertValues α) : List (List (String × Expr α)) :=
  q.values.map fun vs => q.columns.zip (q.items.map (Expr.map vs))

/-- The rows a source of SELECTs has: every name with its expression. -/
def selectOutputs {α : Type} (selects : List (List (Expr α × String))) :
    List (List (String × Expr α)) :=
  selects.map fun items => items.map Prod.swap

/-! ### The statements with their parameters -/

/-- A row as a statement writes it: every column with its own value. -/
def rowOutputs (P : Platform) (allCols : List String) (row : Row) : List (String × Expr PyVal) :=
  allCols.map fun c => (c, columnExpr P c (cell row c))

/-- The rows of the source of the MERGE. -/
def boundSelects (P : Platform) (allCols : List String) (rows : List Row) :
    List (List (Expr PyVal × String)) :=
  rows.map fun row => allCols.map fun c => (columnExpr P c (cell row c), c)

/-- The MERGE, with the rows of its source in place. -/
def boundMergeText (P : Platform) (tgt : Target) (sfTable : String) (pk allCols : List String)
    (orderBy : String) (rows : List Row) (lit : PyVal → String) : String :=
  builtAround tgt sfTable pk allCols orderBy
    ("\n  UNION ALL\n  SELECT ".intercalate ((boundSelects P allCols rows).map (selectText lit)))
    (builtSet pk allCols)

/-- The history INSERT. -/
def boundHistory (P : Platform) (tgt : Target) (sfHistTable : String) (allCols : List String)
    (rows : List Row) : InsertSelect PyVal where
  table := tgt.qualified sfHistTable
  columns := allCols ++ ["_LOADED_AT"]
  selects := rows.map fun row =>
    allCols.map (fun c => columnExpr P c (cell row c)) ++ [.currentTimestamp]
  width := by
    intro items hitems
    obtain ⟨row, -, rfl⟩ := List.mem_map.mp hitems
    rw [List.length_append, List.length_append, List.length_map, List.length_singleton,
      List.length_singleton]

/-- The select list of the page INSERT: `$i` for the `i`-th column. -/
def pageItems (P : Platform) (allCols : List String) : List (Expr (Fin allCols.length)) :=
  List.ofFn (fun i => columnExpr P (allCols.get i) i) ++ [.currentTimestamp]

/-- The page INSERT. -/
def boundPage (P : Platform) (tgt : Target) (sfTable : String) (allCols : List String)
    (rows : List Row) : InsertValues PyVal where
  table := tgt.qualified sfTable
  columns := allCols ++ ["_LOADED_AT"]
  arity := allCols.length
  items := pageItems P allCols
  width := by
    rw [pageItems, List.length_append, List.length_append, List.length_ofFn, List.length_singleton,
      List.length_singleton]
  values := rows.map fun row i => cell row (allCols.get i)

theorem outputs_boundSelects (P : Platform) (allCols : List String) (rows : List Row) :
    selectOutputs (boundSelects P allCols rows) = rows.map (rowOutputs P allCols) := by
  rw [selectOutputs, boundSelects, List.map_map]
  apply List.map_congr_left
  intro row _
  rw [Function.comp_apply, List.map_map]
  rfl

/-- A list beside what a function makes of it. -/
theorem zip_map_self {α β : Type} (l : List α) (f : α → β) :
    l.zip (l.map f) = l.map fun a => (a, f a) := by
  have hboth : (l.map id).zip (l.map f) = l.map fun a => (a, f a) := List.zip_map'
  rwa [List.map_id] at hboth

/-- The column list of an INSERT beside the expressions of its columns. -/
theorem zip_listed {α : Type} (allCols : List String) (f : String → Expr α) :
    (allCols ++ ["_LOADED_AT"]).zip (allCols.map f ++ [.currentTimestamp]) =
      allCols.map (fun c => (c, f c)) ++ [loadedAt] := by
  rw [List.zip_append (List.length_map f).symm, zip_map_self]
  rfl

theorem outputs_boundHistory (P : Platform) (tgt : Target) (sfHistTable : String)
    (allCols : List String) (rows : List Row) :
    (boundHistory P tgt sfHistTable allCols rows).outputs =
      rows.map fun row => rowOutputs P allCols row ++ [loadedAt] := by
  rw [InsertSelect.outputs, boundHistory, List.map_map]
  apply List.map_congr_left
  intro row _
  exact zip_listed allCols fun c => columnExpr P c (cell row c)

theorem ofFn_listed {α β : Type} (l : List α) (f : α → β) :
    List.ofFn (fun i => f (l.get i)) = l.map f := by
  rw [← Function.comp_def f l.get, ← List.map_ofFn, List.ofFn_get]

/-- At a row of VALUES the select list has the values of that row. -/
theorem map_pageItems (P : Platform) (allCols : List String) (row : Row) :
    (pageItems P allCols).map (Expr.map fun i => cell row (allCols.get i)) =
      allCols.map (fun c => columnExpr P c (cell row c)) ++ [.currentTimestamp] := by
  rw [pageItems, List.map_append, List.map_ofFn, ← ofFn_listed allCols]
  congr 2
  funext i
  rw [Function.comp_apply, columnExpr, columnExpr]
  split
  · rfl
  · rfl

theorem outputs_boundPage (P : Platform) (tgt : Target) (sfTable : String) (allCols : List String)
    (rows : List Row) :
    (boundPage P tgt sfTable allCols rows).outputs =
      rows.map fun row => rowOutputs P allCols row ++ [loadedAt] := by
  show (rows.map fun row i => cell row (allCols.get i)).map
    (fun vs => (allCols ++ ["_LOADED_AT"]).zip ((pageItems P allCols).map (Expr.map vs))) = _
  rw [List.map_map]
  apply List.map_congr_left
  intro row _
  rw [Function.comp_apply, map_pageItems]
  exact zip_listed allCols fun c => columnExpr P c (cell row c)

/-- The select list as the builder writes it. -/
theorem selectParts_eq (P : Platform) (allCols : List String) :
    (allCols.zipIdx 1).map (fun p =>
        if p.1 ∈ variantSfCols P then "PARSE_JSON($" ++ toString p.2 ++ ")" else "$" ++ toString p.2)
      ++ ["CURRENT_TIMESTAMP()"] =
    (pageItems P allCols).map (Expr.text fun i => "$" ++ toString (i.val + 1)) := by
  have hdollar : ∀ n : ℕ, "PARSE_JSON($" ++ toString n ++ ")" =
      "PARSE_JSON(" ++ ("$" ++ toString n) ++ ")" := by
    intro n
    have hlit : "PARSE_JSON(" ++ "$" = "PARSE_JSON($" := rfl
    rw [← hlit, ← String.append_assoc]
  rw [pageItems, List.map_append, List.map_ofFn]
  congr 1
  apply List.ext_getElem
  · rw [List.length_map, List.length_zipIdx, List.length_ofFn]
  · intro i hi hi'
    have hlt : i < allCols.length := by rwa [List.length_ofFn] at hi'
    rw [List.getElem_map, List.getElem_zipIdx, List.getElem_ofFn, Function.comp_apply, text_columnExpr,
      Nat.add_comm 1 i, ← hdollar]
    rfl

/-- A number has no `%`. -/
theorem plain_toString (n : ℕ) : Plain (toString n) := by
  intro h
  rw [Nat.toString_eq_ofList_toDigits, String.toList_ofList] at h
  exact absurd (Nat.isDigit_of_mem_toDigits (by omega) (by omega) h) (by decide)

theorem plain_pageItems (P : Platform) (allCols : List String) :
    Plain (", ".intercalate ((pageItems P allCols).map
      (Expr.text fun i => "$" ++ toString (i.val + 1)))) := by
  have hdollar : ∀ n : ℕ, Plain ("$" ++ toString n) := fun n =>
    plain_append.mpr ⟨by decide, plain_toString n⟩
  apply plain_join (by decide)
  intro s hs
  obtain ⟨e, -, rfl⟩ := List.mem_map.mp hs
  cases e with
  | value i => exact hdollar _
  | parseJson i => exact plain_append.mpr ⟨plain_append.mpr ⟨by decide, hdollar _⟩, by decide⟩
  | currentTimestamp => exact show Plain "CURRENT_TIMESTAMP()" by decide

/-! ### Filling the placeholders -/

section Filled

variable (P : Platform) (lit : PyVal → String) {allCols : List String}
  (hcols : ∀ c ∈ allCols, Plain c) (rows : List Row)

/-- The arguments of the columns of a row. -/
theorem flatMap_singleton_args (allCols : List String) (row : Row) :
    allCols.flatMap (fun c => [lit (cell row c)]) = (allCols.map (cell row)).map lit := by
  rw [← List.map_eq_flatMap, List.map_map]
  rfl

/-- The arguments of the rows. -/
theorem flatMap_rows_args (allCols : List String) :
    rows.flatMap (fun row => (allCols.map (cell row)).map lit) =
      (flatParams allCols rows).map lit := by
  rw [flatParams, List.map_flatMap]

/-- One expression takes one argument. -/
theorem format_columnExpr (c : String) (v : PyVal) :
    format ((columnExpr P c ()).text placeholder) [lit v] = some ((columnExpr P c v).text lit) := by
  rw [text_columnExpr, text_columnExpr]
  split
  · exact format_append_plain (format_plain_append (by decide) (format_hole (lit v))) (by decide)
  · exact format_hole (lit v)

/-- A template repeated for every row takes the arguments of the rows in order. -/
theorem format_repeated {sep : String} (hsep : Plain sep) {template : String} {out : Row → String}
    (h : ∀ row ∈ rows, format template ((allCols.map (cell row)).map lit) = some (out row)) :
    format (sep.intercalate (List.replicate rows.length template)) ((flatParams allCols rows).map lit) =
      some (sep.intercalate (rows.map out)) := by
  rw [← List.map_const', ← flatMap_rows_args]
  exact format_join hsep h

/-- The items of a row, joined, take the values of the row in order. -/
theorem format_columns {sep : String} (hsep : Plain sep) {item out : String → String} {row : Row}
    (h : ∀ c ∈ allCols, format (item c) [lit (cell row c)] = some (out c)) :
    format (sep.intercalate (allCols.map item)) ((allCols.map (cell row)).map lit) =
      some (sep.intercalate (allCols.map out)) := by
  rw [← flatMap_singleton_args]
  exact format_join hsep h

include hcols in
/-- The SELECT of a MERGE row. -/
theorem format_mergeRow (row : Row) :
    format (buildMergeRowSelect P allCols) ((allCols.map (cell row)).map lit) =
      some (selectText lit (allCols.map fun c => (columnExpr P c (cell row c), c))) := by
  rw [buildMergeRowSelect_eq, selectText_listed, selectText_listed]
  have hsep : Plain ", " := by decide
  apply format_columns lit hsep
  intro c hc
  have hexpr := format_columnExpr P lit c (cell row c)
  exact format_append_plain (format_append_plain hexpr (by decide)) (hcols c hc)

/-- The SELECT of a history row. -/
theorem format_historyRow (allCols : List String) (row : Row) :
    format (buildHistoryRowSelect P allCols) ((allCols.map (cell row)).map lit) =
      some (", ".intercalate (allCols.map fun c => (columnExpr P c (cell row c)).text lit)
        ++ ", CURRENT_TIMESTAMP()") := by
  have hsep : Plain ", " := by decide
  have hitem : ∀ c ∈ allCols,
      format (if c ∈ jsonbSfCols P then "PARSE_JSON(%s)" else "%s") [lit (cell row c)] =
        some ((columnExpr P c (cell row c)).text lit) := by
    intro c _
    rw [← format_columnExpr, text_columnExpr]
    split
    · rfl
    · rfl
  exact format_append_plain (format_columns lit hsep hitem) (by decide)

/-- The row of VALUES. -/
theorem format_valuesRow (allCols : List String) (row : Row) :
    format ("(" ++ ", ".intercalate (allCols.map fun _ => "%s") ++ ")")
        ((allCols.map (cell row)).map lit) =
      some ("(" ++ ", ".intercalate (allCols.map fun c => lit (cell row c)) ++ ")") := by
  have hsep : Plain ", " := by decide
  have hitem : ∀ c ∈ allCols, format "%s" [lit (cell row c)] = some (lit (cell row c)) :=
    fun c _ => format_hole (lit (cell row c))
  exact format_append_plain (format_plain_append (by decide) (format_columns lit hsep hitem))
    (by decide)

end Filled

/-! ### The texts with their parameters -/

/-- The names the texts are built from have no `%`. -/
structure PlainNames (tgt : Target) (sfTable : String) (pk allCols : List String) : Prop where
  database : Plain tgt.database
  schema : Plain tgt.schema
  sfTable : Plain sfTable
  pk : ∀ c ∈ pk, Plain c
  allCols : ∀ c ∈ allCols, Plain c

section Texts

variable {tgt : Target} {sfTable : String} {pk allCols : List String}

theorem PlainNames.qualified (h : PlainNames tgt sfTable pk allCols) :
    Plain (tgt.qualified sfTable) := by
  have hdot : Plain "." := by decide
  simp only [Target.qualified, plain_append]
  exact ⟨⟨⟨⟨h.database, hdot⟩, h.schema⟩, hdot⟩, h.sfTable⟩

/-- Texts made of plain names, joined. -/
theorem plain_join_map {sep : String} (hsep : Plain sep) {names : List String}
    (hnames : ∀ c ∈ names, Plain c) {f : String → String} (hf : ∀ c, Plain c → Plain (f c)) :
    Plain (sep.intercalate (names.map f)) := by
  apply plain_join hsep
  intro s hs
  obtain ⟨c, hc, rfl⟩ := List.mem_map.mp hs
  exact hf c (hnames c hc)

theorem PlainNames.columns (h : PlainNames tgt sfTable pk allCols) :
    Plain (", ".intercalate allCols) :=
  plain_join (by decide) h.allCols

theorem plain_equation {c : String} (h : Plain c) : Plain ("t." ++ c ++ " = s." ++ c) := by
  simp only [plain_append, h, and_true]
  decide

theorem PlainNames.builtSet (h : PlainNames tgt sfTable pk allCols) :
    Plain (builtSet pk allCols) :=
  plain_append.mpr ⟨plain_join_map (by decide)
    (fun c hc => h.allCols c (List.mem_of_mem_filter hc)) fun _ => plain_equation, by decide⟩

/-- A MERGE text takes the arguments of its source, the other clauses being plain. -/
theorem format_mergeText {table partition order on set columns values : String} (htable : Plain table)
    (hpartition : Plain partition) (horder : Plain order) (hon : Plain on) (hset : Plain set)
    (hcolumns : Plain columns) (hvalues : Plain values) {union out : String} {args : List String}
    (hunion : format union args = some out) :
    format (mergeText table union partition order on set columns values) args =
      some (mergeText table out partition order on set columns values) := by
  have hsplit : ∀ u : String, mergeText table u partition order on set columns values =
      ("MERGE INTO " ++ table ++ " AS t " ++ "USING (" ++ "SELECT * FROM (SELECT ") ++ u
        ++ (") " ++ "QUALIFY ROW_NUMBER() OVER (PARTITION BY " ++ partition ++ " ORDER BY " ++ order
          ++ " DESC) = 1" ++ ") AS s " ++ "ON " ++ on ++ " "
          ++ "WHEN MATCHED THEN UPDATE SET " ++ set ++ " "
          ++ "WHEN NOT MATCHED THEN INSERT (" ++ columns ++ ") VALUES (" ++ values ++ ")") := by
    intro u
    unfold mergeText
    simp only [String.append_assoc]
  rw [hsplit union, hsplit out]
  apply format_append_plain
  · apply format_plain_append _ hunion
    simp only [plain_append, htable, and_true]
    decide
  · simp only [plain_append, hpartition, horder, hon, hset, hcolumns, hvalues, and_true]
    decide

/-- What the MERGE builder writes around the rows is plain. -/
theorem format_builtAround (h : PlainNames tgt sfTable pk allCols) {orderBy : String}
    (horder : orderBy ∈ pk) {union out : String} {args : List String}
    (hunion : format union args = some out) :
    format (builtAround tgt sfTable pk allCols orderBy union (builtSet pk allCols)) args =
      some (builtAround tgt sfTable pk allCols orderBy out (builtSet pk allCols)) := by
  have hon : Plain (" AND ".intercalate (pk.map fun c => "t." ++ c ++ " = s." ++ c)) :=
    plain_join_map (by decide) h.pk fun _ => plain_equation
  have hvals : Plain (", ".intercalate (allCols.map fun c => "s." ++ c) ++ ", CURRENT_TIMESTAMP()") :=
    plain_append.mpr ⟨plain_join_map (by decide) h.allCols fun c hc =>
      plain_append.mpr ⟨by decide, hc⟩, by decide⟩
  exact format_mergeText h.qualified (plain_join (by decide) h.pk) (h.pk orderBy horder) hon h.builtSet
    (plain_append.mpr ⟨h.columns, by decide⟩) hvals hunion

variable (P : Platform) (rows : List Row) (lit : PyVal → String)

/-- The MERGE with its parameters. -/
theorem format_batchMergeSql (h : PlainNames tgt sfTable pk allCols) {k : String} (hk : k ∈ pk) :
    format (builtAround tgt sfTable pk allCols k
        ("\n  UNION ALL\n  SELECT ".intercalate
          (List.replicate rows.length (buildMergeRowSelect P allCols))) (builtSet pk allCols))
        ((flatParams allCols rows).map lit) =
      some (boundMergeText P tgt sfTable pk allCols k rows lit) := by
  have hsep : Plain "\n  UNION ALL\n  SELECT " := by decide
  have hrows := format_repeated lit rows hsep fun row _ => format_mergeRow P lit h.allCols row
  rw [boundMergeText, boundSelects, List.map_map]
  exact format_builtAround h hk hrows

/-- The text of a history INSERT around the SELECTs of its rows. -/
def historyAround (tgt : Target) (sfHistTable : String) (allCols selects : List String) : String :=
  "INSERT INTO " ++ tgt.qualified sfHistTable ++ " (" ++ (", ".intercalate allCols ++ ", _LOADED_AT")
    ++ ") SELECT " ++ "\nUNION ALL\nSELECT ".intercalate selects

/-- The SELECT of a history row, its values in place. -/
def historySelect (allCols : List String) (row : Row) : String :=
  ", ".intercalate (allCols.map fun c => (columnExpr P c (cell row c)).text lit)
    ++ ", CURRENT_TIMESTAMP()"

/-- The history INSERT with its parameters. -/
theorem format_insertHistorySql (h : PlainNames tgt sfTable pk allCols) :
    format (insertHistorySql P tgt sfTable allCols rows.length) ((flatParams allCols rows).map lit) =
      some (historyAround tgt sfTable allCols (rows.map (historySelect P lit allCols))) := by
  have hsep : Plain "\nUNION ALL\nSELECT " := by decide
  have htable := h.qualified
  have hcolumns := h.columns
  have hrows := format_repeated lit rows hsep fun row _ => format_historyRow P lit allCols row
  apply format_plain_append _ hrows
  simp only [plain_append, htable, hcolumns, and_true, true_and]
  decide

/-- It is the text of the INSERT that is meant. -/
theorem text_boundHistory (tgt : Target) (sfTable : String) (hne : allCols ≠ []) :
    (boundHistory P tgt sfTable allCols rows).text lit =
      historyAround tgt sfTable allCols (rows.map (historySelect P lit allCols)) := by
  have hselect : ∀ row : Row, ", ".intercalate
      ((allCols.map (fun c => columnExpr P c (cell row c)) ++ [Expr.currentTimestamp]).map
        (Expr.text lit)) = historySelect P lit allCols row := by
    intro row
    rw [List.map_append, List.map_map, List.map_cons, List.map_nil,
      join_concat ", " fun h => hne (List.map_eq_nil_iff.mp h)]
    rfl
  show "INSERT INTO " ++ tgt.qualified sfTable ++ " ("
    ++ ", ".intercalate (allCols ++ ["_LOADED_AT"]) ++ ") SELECT "
    ++ "\nUNION ALL\nSELECT ".intercalate ((rows.map fun row =>
        allCols.map (fun c => columnExpr P c (cell row c)) ++ [.currentTimestamp]).map fun items =>
      ", ".intercalate (items.map (Expr.text lit))) = _
  rw [join_concat ", " hne, List.map_map]
  simp only [Function.comp_def, hselect]
  rfl

/-- The text of a page INSERT around the rows of VALUES. -/
def pageAround (tgt : Target) (sfTable : String) (allCols values : List String) : String :=
  "INSERT INTO " ++ tgt.qualified sfTable ++ " (" ++ (", ".intercalate allCols ++ ", _LOADED_AT")
    ++ ") " ++ "SELECT " ++ ", ".intercalate ((pageItems P allCols).map
      (Expr.text fun i => "$" ++ toString (i.val + 1)))
    ++ " FROM VALUES " ++ ", ".intercalate values

theorem buildPageInsertSql_eq (nRows : ℕ) :
    buildPageInsertSql P tgt sfTable allCols nRows =
      pageAround P tgt sfTable allCols (List.replicate nRows
        ("(" ++ ", ".intercalate (allCols.map fun _ => "%s") ++ ")")) := by
  unfold pageAround
  rw [← selectParts_eq]
  rfl

/-- The page INSERT with its parameters. -/
theorem format_pageInsertSql (h : PlainNames tgt sfTable pk allCols) :
    format (buildPageInsertSql P tgt sfTable allCols rows.length) ((flatParams allCols rows).map lit) =
      some (pageAround P tgt sfTable allCols (rows.map fun row =>
        "(" ++ ", ".intercalate (allCols.map fun c => lit (cell row c)) ++ ")")) := by
  have hsep : Plain ", " := by decide
  have htable := h.qualified
  have hcolumns := h.columns
  have hitems := plain_pageItems P allCols
  have hrows := format_repeated lit rows hsep fun row _ => format_valuesRow lit allCols row
  rw [buildPageInsertSql_eq]
  apply format_plain_append _ hrows
  simp only [plain_append, htable, hcolumns, hitems, and_true, true_and]
  decide

/-- It is the text of the INSERT that is meant. -/
theorem text_boundPage (tgt : Target) (sfTable : String) (hne : allCols ≠ []) :
    (boundPage P tgt sfTable allCols rows).text lit =
      pageAround P tgt sfTable allCols (rows.map fun row =>
        "(" ++ ", ".intercalate (allCols.map fun c => lit (cell row c)) ++ ")") := by
  have hvalues : (boundPage P tgt sfTable allCols rows).values.map (fun vs =>
      "(" ++ ", ".intercalate (List.ofFn fun i => lit (vs i)) ++ ")") =
      rows.map fun row => "(" ++ ", ".intercalate (allCols.map fun c => lit (cell row c)) ++ ")" := by
    apply List.map_map.trans
    apply List.map_congr_left
    intro row _
    exact congrArg (fun items => "(" ++ ", ".intercalate items ++ ")")
      (ofFn_listed allCols fun c => lit (cell row c))
  have hcolumns : ", ".intercalate (boundPage P tgt sfTable allCols rows).columns =
      ", ".intercalate allCols ++ ", _LOADED_AT" := join_concat ", " hne "_LOADED_AT"
  unfold InsertValues.text
  rw [hvalues, hcolumns]
  rfl

end Texts

/-! ### Lining up -/

/-- A text and the flattened parameters of `rows` line up: there is one placeholder for each row and
column, the `k`-th of them takes column `k % |cols|` of row `k / |cols|`, and with the parameters in
place the text is `bound`.  With no columns nothing is bound. -/
structure LinesUp (allCols : List String) (rows : List Row) (sql : String)
    (bound : (PyVal → String) → String) : Prop where
  holes : holes sql = some (rows.length * allCols.length)
  length : (flatParams allCols rows).length = rows.length * allCols.length
  nth : ∀ k < rows.length * allCols.length, ∃ row c, rows[k / allCols.length]? = some row
    ∧ allCols[k % allCols.length]? = some c ∧ (flatParams allCols rows)[k]? = some (cell row c)
  filled : allCols ≠ [] → ∀ lit, format sql ((flatParams allCols rows).map lit) = some (bound lit)

theorem length_flatParams (allCols : List String) (rows : List Row) :
    (flatParams allCols rows).length = rows.length * allCols.length :=
  length_flatMap_rows _ fun _ _ => List.length_map _

/-- **The parameters, by row and column.** -/
theorem getElem?_flatParams {allCols : List String} {rows : List Row} {k : ℕ}
    (hk : k < rows.length * allCols.length) :
    ∃ row c, rows[k / allCols.length]? = some row ∧ allCols[k % allCols.length]? = some c
      ∧ (flatParams allCols rows)[k]? = some (cell row c) := by
  have hpos : 0 < allCols.length := by
    by_contra hzero
    rw [Nat.eq_zero_of_not_pos hzero, Nat.mul_zero] at hk
    exact Nat.not_lt_zero k hk
  have hrow : k / allCols.length < rows.length := Nat.div_lt_of_lt_mul (by rwa [Nat.mul_comm])
  have hcol : k % allCols.length < allCols.length := Nat.mod_lt k hpos
  refine ⟨rows[k / allCols.length], allCols[k % allCols.length], List.getElem?_eq_getElem hrow,
    List.getElem?_eq_getElem hcol, ?_⟩
  rw [flatParams, getElem?_flatMap_rows hpos _ (fun row _ => List.length_map _),
    List.getElem?_eq_getElem hrow, Option.bind_some, List.getElem?_map,
    List.getElem?_eq_getElem hcol]
  rfl

/-- A text that takes its parameters has one placeholder for each. -/
theorem holes_of_params {sql : String} {params : List PyVal} {text : (PyVal → String) → String}
    (h : ∀ lit, format sql (params.map lit) = some (text lit)) :
    holes sql = some params.length := by
  rw [holes_of_format (h fun _ => ""), List.length_map]

/-- A text that takes the flattened parameters lines up with them. -/
theorem linesUp_of_format {allCols : List String} {rows : List Row} {sql : String}
    {bound : (PyVal → String) → String}
    (h : ∀ lit, ∃ text, format sql ((flatParams allCols rows).map lit) = some text
      ∧ (allCols ≠ [] → text = bound lit)) : LinesUp allCols rows sql bound where
  holes := by
    obtain ⟨text, htext, -⟩ := h fun _ => ""
    rw [holes_of_format htext, List.length_map, length_flatParams]
  length := length_flatParams allCols rows
  nth _ := getElem?_flatParams
  filled := by
    intro hne lit
    obtain ⟨text, htext, hbound⟩ := h lit
    rw [htext, hbound hne]

/-! ### The statements of a batch -/

/-- The value of an expression written to column `c`. -/
def Expr.eval (P : Platform) (sfTable c : String) : Expr PyVal → PyVal
  | .value v => P.sqlValue sfTable c v
  | .parseJson v => P.parsedJson v
  | .currentTimestamp => .none

/-- The row that a row of outputs is read as. -/
def readRow (P : Platform) (sfTable : String) (outputs : List (String × Expr PyVal)) : SfRow := fun c =>
  match find c outputs with
  | some e => e.eval P sfTable c
  | none => .none

/-- **The outputs of a row are the row the statement writes.** -/
theorem readRow_rowOutputs (P : Platform) (sfTable : String) (allCols : List String) (row : Row) :
    readRow P sfTable (rowOutputs P allCols row) =
      sourceRow P sfTable allCols (allCols.map (cell row)) := by
  funext c
  rw [readRow, sourceRow_map, rowOutputs, ← zip_map_self]
  by_cases hc : c ∈ allCols
  · rw [find_zip_map hc, if_pos hc, columnExpr, boundValue]
    dsimp only
    split
    · rfl
    · rfl
  · have hnone : find c (allCols.zip (allCols.map fun c => columnExpr P c (cell row c))) = none := by
      rw [find_eq_none_iff, List.map_fst_zip (List.length_map _).ge]
      exact hc
    rw [hnone, if_neg hc]

/-- The names of a statement have no `%`. -/
def Stmt.NamesPlain (tgt : Target) : Stmt → Prop
  | .merge sfTable pk allCols _ => PlainNames tgt sfTable pk allCols
  | .delete sfTable pk _ => PlainNames tgt sfTable pk []
  | .insert sfTable allCols _ => PlainNames tgt sfTable [] allCols

/-- A `WHERE` clause takes the values of its columns in order. -/
theorem format_deleteSql {tgt : Target} {sfTable : String} {pk : List String}
    (h : PlainNames tgt sfTable pk []) (row : Row) (lit : PyVal → String) :
    format (deleteSql tgt sfTable pk) ((pk.map (cell row)).map lit) =
      some ("DELETE FROM " ++ tgt.qualified sfTable ++ " WHERE "
        ++ " AND ".intercalate (pk.map fun c => c ++ (" = " ++ lit (cell row c)))) := by
  have hsep : Plain " AND " := by decide
  have htable := h.qualified
  have hitem : ∀ c ∈ pk, format (c ++ " = %s") [lit (cell row c)] =
      some (c ++ (" = " ++ lit (cell row c))) := by
    intro c hc
    have hhole : format (" = " ++ "%s") [lit (cell row c)] = some (" = " ++ lit (cell row c)) :=
      format_plain_append (by decide) (format_hole (lit (cell row c)))
    exact format_plain_append (h.pk c hc) hhole
  apply format_plain_append _ (format_columns lit hsep hitem)
  simp only [plain_append, htable, and_true]
  decide

/-- **Every statement of a batch has as many placeholders as parameters.** -/
theorem holes_of_mem_writeBatch {P : Platform} {tgt : Target} {events : List ChangeEvent} {stmt : Stmt}
    (hstmt : stmt ∈ (writeBatch P events).1) (hnames : stmt.NamesPlain tgt) :
    ∃ sql, stmt.sql P tgt = some sql ∧ holes sql = some stmt.params.length := by
  obtain ⟨g, -, sfCurrent, sfHistory, hmap, hmem⟩ := mem_writeGroups hstmt
  have hpk : pkOf sfCurrent ≠ [] := (pkOf_of_mapped hmap).1
  rw [writeCurrent_eq, List.mem_append, List.mem_append] at hmem
  rcases hmem with (hmerge | hdelete) | hinsert
  · rw [mergeCurrent] at hmerge
    split at hmerge
    · simp at hmerge
    · obtain rfl := List.mem_singleton.mp hmerge
      rw [Stmt.sql, Stmt.params, List.length_map, ← List.flatMap_def, buildBatchMergeSql_eq,
        List.head?_eq_some_head hpk]
      exact ⟨_, rfl, holes_of_params fun lit =>
        format_batchMergeSql P _ lit hnames (List.head_mem hpk)⟩
  · obtain ⟨e, -, rfl⟩ := List.mem_map.mp hdelete
    exact ⟨_, rfl, holes_of_params (format_deleteSql hnames _)⟩
  · rw [insertHistory] at hinsert
    split at hinsert
    · simp at hinsert
    · obtain rfl := List.mem_singleton.mp hinsert
      rw [Stmt.sql, Stmt.params, List.length_map, ← List.flatMap_def]
      exact ⟨_, rfl, holes_of_params fun lit => format_insertHistorySql P _ lit hnames⟩

/-- **The three bulk statements line up**: the batch MERGE, the history INSERT and the page INSERT, and
every value ends in the column of its name, through `PARSE_JSON` for a JSONB column. -/
theorem bulk_placeholders (P : Platform) {tgt : Target} {sfTable : String} {pk allCols : List String}
    {rows : List Row} (hnames : PlainNames tgt sfTable pk allCols) (hpk : pk ≠ []) :
    (∃ sql, buildBatchMergeSql P tgt sfTable pk allCols rows.length = some sql
      ∧ LinesUp allCols rows sql (boundMergeText P tgt sfTable pk allCols (pk.head hpk) rows)
      ∧ selectOutputs (boundSelects P allCols rows) = rows.map (rowOutputs P allCols))
    ∧ (LinesUp allCols rows (insertHistorySql P tgt sfTable allCols rows.length)
        (boundHistory P tgt sfTable allCols rows).text
      ∧ (boundHistory P tgt sfTable allCols rows).outputs =
        rows.map fun row => rowOutputs P allCols row ++ [loadedAt])
    ∧ (LinesUp allCols rows (buildPageInsertSql P tgt sfTable allCols rows.length)
        (boundPage P tgt sfTable allCols rows).text
      ∧ (boundPage P tgt sfTable allCols rows).outputs =
        rows.map fun row => rowOutputs P allCols row ++ [loadedAt]) := by
  refine ⟨?_, ⟨?_, outputs_boundHistory P tgt sfTable allCols rows⟩,
    ⟨?_, outputs_boundPage P tgt sfTable allCols rows⟩⟩
  · refine ⟨_, by rw [buildBatchMergeSql_eq, List.head?_eq_some_head hpk, Option.map_some], ?_,
      outputs_boundSelects P allCols rows⟩
    exact linesUp_of_format fun lit =>
      ⟨_, format_batchMergeSql P rows lit hnames (List.head_mem hpk), fun _ => rfl⟩
  · exact linesUp_of_format fun lit =>
      ⟨_, format_insertHistorySql P rows lit hnames,
        fun hne => (text_boundHistory P rows lit tgt sfTable hne).symm⟩
  · exact linesUp_of_format fun lit =>
      ⟨_, format_pageInsertSql P rows lit hnames,
        fun hne => (text_boundPage P rows lit tgt sfTable hne).symm⟩

/-- The history rows of a device that is inserted and then deleted: ten placeholders, the tags parsed. -/
theorem bulk_placeholders_devices :
    LinesUp ["ID", "TAGS", "_CDC_OP", "_CDC_LSN", "_CDC_TS"]
      [⟨[("ID", .int 1), ("TAGS", .str "[]"), ("_CDC_OP", .str "I"), ("_CDC_LSN", .int 12),
          ("_CDC_TS", .str "0")], by decide⟩,
        ⟨[("ID", .int 1), ("TAGS", .none), ("_CDC_OP", .str "D"), ("_CDC_LSN", .int 15),
          ("_CDC_TS", .str "0")], by decide⟩]
      (insertHistorySql .ascii ⟨"ANALYTICS_DEV", "PUBLIC"⟩ "CUSTOMER_DEVICES_HISTORY"
        ["ID", "TAGS", "_CDC_OP", "_CDC_LSN", "_CDC_TS"] 2)
      (boundHistory .ascii ⟨"ANALYTICS_DEV", "PUBLIC"⟩ "CUSTOMER_DEVICES_HISTORY"
        ["ID", "TAGS", "_CDC_OP", "_CDC_LSN", "_CDC_TS"]
        [⟨[("ID", .int 1), ("TAGS", .str "[]"), ("_CDC_OP", .str "I"), ("_CDC_LSN", .int 12),
            ("_CDC_TS", .str "0")], by decide⟩,
          ⟨[("ID", .int 1), ("TAGS", .none), ("_CDC_OP", .str "D"), ("_CDC_LSN", .int 15),
            ("_CDC_TS", .str "0")], by decide⟩]).text :=
  (bulk_placeholders .ascii ⟨by decide, by decide, by decide, by decide, by decide⟩
    (List.cons_ne_nil "ID" [])).2.1.1

end PgSnowflakeCdc
