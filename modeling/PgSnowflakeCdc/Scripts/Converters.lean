import PgSnowflakeCdc.Scripts.Backfill

/-!
# The two row converters

`backfill.py` and `snowflake_sink.py` each have a `_row_to_sf`; `reconcile.py` uses the sink's.  The
first serialises a value by its type, the second by the name of its column.

* `lastEntry` — the entry of a row that a converter keeps under a Snowflake name;
* `converters_agree_iff` — **the converters agree on a row exactly when every container they keep
  stands in a JSONB column**;
* `bulk_jsonb_survives_iff` — **a JSONB value survives either converter exactly when it is not a
  string.**
-/

namespace PgSnowflakeCdc

open OrderedDict

/-! ### What a converter keeps -/

/-- The entry of the row that stands under a converted name: the last one that converts to it. -/
def lastEntry (P : Platform) (row : Row) (c : String) : Option (String × PyVal) :=
  (row.entries.filter fun p => pgColToSf P p.1 = c).getLast?

/-- Looking a name up in a row converted entry by entry. -/
theorem get?_ofPairs_converted (P : Platform) (row : Row) (f : String × PyVal → PyVal) (c : String) :
    (Dict.ofPairs (row.entries.map fun p => (pgColToSf P p.1, f p))).get? c =
      (lastEntry P row c).map f := by
  have hfilter : (row.entries.map fun p => (pgColToSf P p.1, f p)).filter (fun p => p.1 = c) =
      (row.entries.filter fun p => pgColToSf P p.1 = c).map fun p => (pgColToSf P p.1, f p) := by
    rw [List.filter_map]
    rfl
  rw [Dict.get?_ofPairs, hfilter, List.getLast?_map, Option.map_map]
  rfl

theorem get?_rowToSf (P : Platform) (row : Row) (c : String) :
    (rowToSf P row).get? c = (lastEntry P row c).map fun p => convertValue p.1 p.2 :=
  get?_ofPairs_converted P row (fun p => convertValue p.1 p.2) c

theorem get?_backfillRowToSf (P : Platform) (row : Row) (c : String) :
    (backfillRowToSf P row).get? c = (lastEntry P row c).map fun p => backfillValue p.2 :=
  get?_ofPairs_converted P row (fun p => backfillValue p.2) c

/-- With distinct converted names every entry is kept. -/
theorem mem_lastEntry_of_nodup {P : Platform} {row : Row} (h : (row.keys.map (pgColToSf P)).Nodup)
    {p : String × PyVal} {c : String} :
    p ∈ lastEntry P row c ↔ p ∈ row.entries ∧ pgColToSf P p.1 = c := by
  have hunique : KeyedRows.UniqueKeys (fun p : String × PyVal => pgColToSf P p.1) row.entries := by
    rw [Dict.keys, List.map_map] at h
    exact h
  constructor
  · intro hp
    have hmem := List.mem_of_getLast? hp
    rw [List.mem_filter, decide_eq_true_eq] at hmem
    exact hmem
  · rintro ⟨hp, rfl⟩
    have hone := KeyedRows.rowsAt_of_uniqueKeys _ hunique (pgColToSf P p.1)
    rw [RowNumbering.find?_key_of_mem (fun p : String × PyVal => pgColToSf P p.1) hunique hp,
      KeyedRows.rowsAt] at hone
    rw [lastEntry, hone]
    rfl

/-! ### Agreement -/

/-- In a JSONB column both converters serialise containers and nothing else. -/
theorem convertValue_of_jsonb {pgKey : String} (h : pgKey ∈ jsonbCols) (val : PyVal) :
    convertValue pgKey val = backfillValue val := by
  unfold convertValue
  rw [if_pos h]
  cases val <;> rfl

theorem convertValue_of_notMem {pgKey : String} (h : pgKey ∉ jsonbCols) (val : PyVal) :
    convertValue pgKey val = val := if_neg h

/-- Serialising by type and by name comes to the same unless a container stands outside the JSONB
columns. -/
theorem backfillValue_eq_iff (pgKey : String) (val : PyVal) :
    backfillValue val = convertValue pgKey val ↔ (val.isContainer = true → pgKey ∈ jsonbCols) := by
  by_cases hjsonb : pgKey ∈ jsonbCols
  · rw [convertValue_of_jsonb hjsonb]
    exact iff_of_true rfl fun _ => hjsonb
  · rw [convertValue_of_notMem hjsonb]
    cases val with
    | dict kvs => exact iff_of_false PyVal.noConfusion fun h => hjsonb (h rfl)
    | list xs => exact iff_of_false PyVal.noConfusion fun h => hjsonb (h rfl)
    | _ => exact iff_of_true rfl Bool.noConfusion

/-- Every container that is kept stands in a JSONB column. -/
def ContainersInJsonb (P : Platform) (row : Row) : Prop :=
  ∀ c, ∀ p ∈ lastEntry P row c, p.2.isContainer = true → p.1 ∈ jsonbCols

/-- With distinct converted names: every container of the row does. -/
theorem containersInJsonb_iff {P : Platform} {row : Row} (h : (row.keys.map (pgColToSf P)).Nodup) :
    ContainersInJsonb P row ↔ ∀ p ∈ row.entries, p.2.isContainer = true → p.1 ∈ jsonbCols := by
  simp only [ContainersInJsonb, mem_lastEntry_of_nodup h]
  constructor
  · exact fun hall p hp => hall _ p ⟨hp, rfl⟩
  · exact fun hall _ p hp => hall p hp.1

/-- The converters list the same columns, in the same order. -/
theorem keys_rowToSf_eq_backfill (P : Platform) (row : Row) :
    (rowToSf P row).keys = (backfillRowToSf P row).keys := by
  apply Dict.keys_ofPairs_congr
  rw [List.map_map, List.map_map]
  rfl

/-- Dictionaries with the same keys in the same order and the same values are the same. -/
theorem dict_ext_get? {d d' : Row} (hkeys : d.keys = d'.keys) (h : ∀ k, d.get? k = d'.get? k) :
    d = d' := by
  have hvalue : ∀ e : Row, e.entries = e.keys.map fun k => (k, (e.get? k).getD .none) := by
    intro e
    rw [Dict.keys, List.map_map]
    conv_lhs => rw [← List.map_id e.entries]
    apply List.map_congr_left
    rintro ⟨k, v⟩ hp
    rw [Function.comp_apply, Dict.get?_eq_some_iff.mpr hp]
    rfl
  apply Dict.ext
  rw [hvalue d, hvalue d', hkeys]
  apply List.map_congr_left
  intro k _
  rw [h k]

/-- **When the two converters agree on a row.** -/
theorem converters_agree_iff (P : Platform) (row : Row) :
    backfillRowToSf P row = rowToSf P row ↔ ContainersInJsonb P row := by
  have hvalues : (∀ c, (backfillRowToSf P row).get? c = (rowToSf P row).get? c) ↔
      ContainersInJsonb P row := by
    apply forall_congr'
    intro c
    rw [get?_backfillRowToSf, get?_rowToSf]
    cases hlast : lastEntry P row c with
    | none => simp
    | some p =>
      simp only [Option.map_some, Option.some.injEq, Option.mem_some_iff, forall_eq']
      exact backfillValue_eq_iff p.1 p.2
  rw [← hvalues]
  constructor
  · intro heq c
    rw [heq]
  · exact dict_ext_get? (keys_rowToSf_eq_backfill P row).symm

/-- A device with an array column. -/
def aliasesRow : Row := ⟨[("id", .int 1), ("aliases", .list [.str "tv"])], by simp⟩

/-- **An array column comes out as text of one converter and as a list of the other.** -/
theorem converters_differ_on_array :
    backfillRowToSf .ascii aliasesRow ≠ rowToSf .ascii aliasesRow ∧
      (backfillRowToSf .ascii aliasesRow).get? "ALIASES" = some (.str "[\"tv\"]") ∧
      (rowToSf .ascii aliasesRow).get? "ALIASES" = some (.list [.str "tv"]) := by
  have hback : (backfillRowToSf .ascii aliasesRow).get? "ALIASES" = some (.str "[\"tv\"]") := by
    decide +kernel
  have hsink : (rowToSf .ascii aliasesRow).get? "ALIASES" = some (.list [.str "tv"]) := by
    decide +kernel
  refine ⟨fun heq => ?_, hback, hsink⟩
  rw [heq, hsink] at hback
  exact absurd hback (by decide)

/-! ### JSONB values -/

/-- `json.loads`, `none` when it raises, and what is relied on of it. -/
structure JsonLoads where
  loads : String → Option Json
  /-- `json.loads(json.dumps(x)) = x` for what it delivers. -/
  loads_dumps : ∀ text v, loads text = some v → loads v.dumps = some v
  /-- A string literal has quotes, and at least one character for each of the string. -/
  length_lt : ∀ text s, loads text = some (.str s) → s.length < text.length

/-- A decoded JSON value as psycopg2 delivers it. -/
def Json.toPy : Json → PyVal
  | .null => .none
  | .bool b => .bool b
  | .int i => .int i
  | .float r => .float r
  | .str s => .str s
  | .arr xs => .list xs
  | .obj kvs => .dict kvs

/-- The text that `PARSE_JSON(%s)` reads: a bound text as it is, a number or truth value as its literal
casts to text.  `NULL` has none, and a container cannot be bound. -/
def boundText : PyVal → Option String
  | .str s => some s
  | .bool b => some (if b then "true" else "false")
  | .int i => some (toString i)
  | .float r => some r
  | .other text => some text
  | _ => none

/-- The bound value stands for the JSON value: it is `NULL` for null only, and otherwise a JSON text of
the value. -/
def StandsFor (J : JsonLoads) (v : Json) (bound : PyVal) : Prop :=
  (bound = .none ↔ v = .null) ∧
    (v ≠ .null → ∃ text, boundText bound = some text ∧ J.loads text = some v)

/-- A string is bound as it is, and its text is not a JSON text of itself. -/
theorem not_standsFor_str (J : JsonLoads) (s : String) : ¬ StandsFor J (.str s) (.str s) := by
  rintro ⟨-, htext⟩
  obtain ⟨text, hbound, hloads⟩ := htext Json.noConfusion
  have hsame : s = text := Option.some.inj hbound
  rw [← hsame] at hloads
  exact lt_irrefl _ (J.length_lt s s hloads)

theorem backfillValue_toPy_eq_none_iff (v : Json) : backfillValue v.toPy = .none ↔ v = .null := by
  cases v with
  | null => exact iff_of_true rfl rfl
  | _ => exact iff_of_false nofun nofun

/-- What is neither null nor a string is bound as its JSON text. -/
theorem boundText_backfillValue {v : Json} (hnull : v ≠ .null) (hstr : ∀ s, v ≠ .str s) :
    boundText (backfillValue v.toPy) = some v.dumps := by
  cases v with
  | null => exact absurd rfl hnull
  | str s => exact absurd rfl (hstr s)
  | _ => rfl

/-- **A converted value stands for the JSON value exactly when that is not a string.** -/
theorem standsFor_backfillValue_iff (J : JsonLoads) {text : String} {v : Json}
    (h : J.loads text = some v) : StandsFor J v (backfillValue v.toPy) ↔ ∀ s, v ≠ .str s := by
  constructor
  · rintro hstands s rfl
    exact not_standsFor_str J s hstands
  · intro hstr
    refine ⟨backfillValue_toPy_eq_none_iff v, fun hnull => ⟨v.dumps, ?_, J.loads_dumps text v h⟩⟩
    exact boundText_backfillValue hnull hstr

/-- **JSONB values survive the bulk loaders exactly when they are not strings.**  For every row that
holds, in a JSONB column, what `json.loads` makes of the stored text, both the value that `backfill.py`
binds and the one that `reconcile.py` binds stand for the JSON value if and only if it is not a
string. -/
theorem bulk_jsonb_survives_iff (P : Platform) (J : JsonLoads) {row : Row} {pgKey text : String}
    {v : Json} (hjsonb : pgKey ∈ jsonbCols) (hloads : J.loads text = some v)
    (hrow : lastEntry P row (pgColToSf P pgKey) = some (pgKey, v.toPy)) :
    (StandsFor J v (cell (backfillRowToSf P row) (pgColToSf P pgKey)) ↔ ∀ s, v ≠ .str s) ∧
      (StandsFor J v (cell (rowToSf P row) (pgColToSf P pgKey)) ↔ ∀ s, v ≠ .str s) := by
  have hback : cell (backfillRowToSf P row) (pgColToSf P pgKey) = backfillValue v.toPy := by
    rw [cell, get?_backfillRowToSf, hrow]
    rfl
  have hsink : cell (rowToSf P row) (pgColToSf P pgKey) = backfillValue v.toPy := by
    rw [cell, get?_rowToSf, hrow, Option.map_some, Option.getD_some, convertValue_of_jsonb hjsonb]
  rw [hback, hsink]
  exact ⟨standsFor_backfillValue_iff J hloads, standsFor_backfillValue_iff J hloads⟩

/-- `json.loads` on three texts. -/
def sampleLoads : JsonLoads where
  loads text :=
    if text = "[1]" then some (.arr [.int 1])
    else if text = "\"5\"" then some (.str "5")
    else if text = "5" then some (.int 5)
    else none
  loads_dumps := by
    intro text v h
    split at h
    · rw [← Option.some.inj h]
      decide +kernel
    · split at h
      · rw [← Option.some.inj h]
        decide +kernel
      · split at h
        · rw [← Option.some.inj h]
          decide +kernel
        · cases h
  length_lt := by
    intro text s h
    split at h
    · cases h
    · split at h
      · next htext =>
        cases h
        rw [htext]
        decide
      · split at h
        · cases h
        · cases h

/-- A row with the tags `v`. -/
def tagsRow (v : Json) : Row := ⟨[("id", .int 1), ("tags", v.toPy)], by simp⟩

/-- A list of tags survives. -/
theorem bulk_jsonb_survives_list :
    (StandsFor sampleLoads (.arr [.int 1])
        (cell (backfillRowToSf .ascii (tagsRow (.arr [.int 1]))) (pgColToSf .ascii "tags")) ↔
      ∀ s, Json.arr [.int 1] ≠ .str s) ∧
    (StandsFor sampleLoads (.arr [.int 1])
        (cell (rowToSf .ascii (tagsRow (.arr [.int 1]))) (pgColToSf .ascii "tags")) ↔
      ∀ s, Json.arr [.int 1] ≠ .str s) :=
  bulk_jsonb_survives_iff .ascii sampleLoads (by decide)
    (show sampleLoads.loads "[1]" = some (.arr [.int 1]) from rfl) (by decide +kernel)

/-- **The JSON string `"5"` is read back as the number 5.** -/
theorem bulk_jsonb_string_changes_type :
    let v : Json := .str "5"
    sampleLoads.loads "\"5\"" = some v ∧
      cell (backfillRowToSf .ascii (tagsRow v)) "TAGS" = .str "5" ∧
      cell (rowToSf .ascii (tagsRow v)) "TAGS" = .str "5" ∧
      (boundText (.str "5")).bind sampleLoads.loads = some (.int 5) ∧
      ¬ StandsFor sampleLoads v (cell (backfillRowToSf .ascii (tagsRow v)) "TAGS") ∧
      ¬ StandsFor sampleLoads v (cell (rowToSf .ascii (tagsRow v)) "TAGS") := by
  have hback : cell (backfillRowToSf .ascii (tagsRow (.str "5"))) "TAGS" = .str "5" := by
    decide +kernel
  have hsink : cell (rowToSf .ascii (tagsRow (.str "5"))) "TAGS" = .str "5" := by decide +kernel
  refine ⟨rfl, hback, hsink, by decide, ?_, ?_⟩
  · rw [hback]
    exact not_standsFor_str sampleLoads "5"
  · rw [hsink]
    exact not_standsFor_str sampleLoads "5"

end PgSnowflakeCdc
