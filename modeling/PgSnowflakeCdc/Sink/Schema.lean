import PgSnowflakeCdc.PgOutput.Parser

/-!
# Tables, keys and row conversion (`snowflake_sink.py`, configuration and helpers)

The module constants `_TABLE_MAP`, `_PARTITION_PREFIXES`, `_PK_COLS` and `_JSONB_COLS`, the table
normalisation, and the conversion of a pgoutput row to Snowflake column names and values.
-/

namespace PgSnowflakeCdc

open OrderedDict

/-! ### Configuration -/

/-- `_TABLE_MAP`: PostgreSQL table ↦ (current-state table, history table). -/
def tableMap : Dict String (String × String) :=
  ⟨[("customers", ("CUSTOMERS", "CUSTOMERS_HISTORY")),
    ("customer_devices", ("CUSTOMER_DEVICES", "CUSTOMER_DEVICES_HISTORY"))], by decide⟩

/-- `_PARTITION_PREFIXES`: partition prefix ↦ parent table. -/
def partitionPrefixes : Dict String String := ⟨[("customers_", "customers")], by decide⟩

/-- `normalize_pg_table`. -/
def normalizePgTable (table : String) : String :=
  match partitionPrefixes.entries.find? (fun p => p.1.toList.isPrefixOf table.toList) with
  | some p => p.2
  | none => table

/-- `_PK_COLS`: the MERGE key columns of each current-state table. -/
def pkCols : Dict String (List String) :=
  ⟨[("CUSTOMERS", ["ID", "TENANT_ID"]), ("CUSTOMER_DEVICES", ["ID"])], by decide⟩

/-- `_PK_COLS[sf_table]`; every current-state table of `_TABLE_MAP` has an entry
(`pkOf_of_mapped`). -/
def pkOf (sfTable : String) : List String := (pkCols.get? sfTable).getD []

/-- `_JSONB_COLS`. -/
def jsonbCols : List String := ["metadata", "tags"]

/-- A table is mapped when `normalize_pg_table(table) in _TABLE_MAP`. -/
def IsMapped (table : String) : Prop := normalizePgTable table ∈ tableMap.keys

instance (table : String) : Decidable (IsMapped table) := inferInstanceAs (Decidable (_ ∈ _))

/-- The entries of `_TABLE_MAP`. -/
theorem tableMap_cases {t current history : String} (h : tableMap.get? t = some (current, history)) :
    (t = "customers" ∧ current = "CUSTOMERS" ∧ history = "CUSTOMERS_HISTORY") ∨
      (t = "customer_devices" ∧ current = "CUSTOMER_DEVICES"
        ∧ history = "CUSTOMER_DEVICES_HISTORY") := by
  have hmem : (t, (current, history)) ∈ tableMap.entries := Dict.get?_eq_some_iff.mp h
  simpa only [tableMap, List.mem_cons, Prod.mk.injEq, List.not_mem_nil, or_false] using hmem

theorem pkOf_of_mapped {pgTable current history : String}
    (h : tableMap.get? pgTable = some (current, history)) :
    pkOf current ≠ [] ∧ current ∈ pkCols.keys ∧ history ∉ pkCols.keys := by
  obtain ⟨-, rfl, rfl⟩ | ⟨-, rfl, rfl⟩ := tableMap_cases h
  · decide
  · decide

/-- Two PostgreSQL tables do not share a current-state table. -/
theorem tableMap_current_injective {t t' current history history' : String}
    (h : tableMap.get? t = some (current, history))
    (h' : tableMap.get? t' = some (current, history')) : t = t' := by
  obtain ⟨rfl, rfl, -⟩ | ⟨rfl, rfl, -⟩ := tableMap_cases h
  · obtain ⟨rfl, -⟩ | ⟨-, hc, -⟩ := tableMap_cases h'
    · rfl
    · exact absurd hc (by decide)
  · obtain ⟨-, hc, -⟩ | ⟨rfl, -⟩ := tableMap_cases h'
    · exact absurd hc (by decide)
    · rfl

/-- Nor a history table. -/
theorem tableMap_history_injective {t t' current current' history : String}
    (h : tableMap.get? t = some (current, history))
    (h' : tableMap.get? t' = some (current', history)) : t = t' := by
  obtain ⟨rfl, -, rfl⟩ | ⟨rfl, -, rfl⟩ := tableMap_cases h
  · obtain ⟨rfl, -⟩ | ⟨-, -, hh⟩ := tableMap_cases h'
    · rfl
    · exact absurd hh (by decide)
  · obtain ⟨-, -, hh⟩ | ⟨rfl, -⟩ := tableMap_cases h'
    · exact absurd hh (by decide)
    · rfl

/-- A current-state table is not a history table. -/
theorem tableMap_current_ne_history {t t' current current' history history' : String}
    (h : tableMap.get? t = some (current, history))
    (h' : tableMap.get? t' = some (current', history')) : current ≠ history' := by
  rintro rfl
  exact (pkOf_of_mapped h').2.2 (pkOf_of_mapped h).2.1

/-- The parent of a partition is a table of its own, so normalising twice is normalising once. -/
theorem normalizePgTable_idem (table : String) :
    normalizePgTable (normalizePgTable table) = normalizePgTable table := by
  have hparents : ∀ p ∈ partitionPrefixes.entries, normalizePgTable p.2 = p.2 := by decide
  cases h : partitionPrefixes.entries.find? (fun p => p.1.toList.isPrefixOf table.toList) with
  | none =>
    have hsame : normalizePgTable table = table := by rw [normalizePgTable, h]
    rw [hsame, hsame]
  | some p =>
    have hparent : normalizePgTable table = p.2 := by rw [normalizePgTable, h]
    rw [hparent, hparents p (List.mem_of_find?_eq_some h)]

/-! ### Column names -/

/-- `re.sub(r'([a-z])([A-Z])', r'\1_\2', name)`: matches are found left to right and do not
overlap, so a matched pair is consumed as a whole. -/
def splitCamel : List Char → List Char
  | a :: b :: rest =>
    if ('a' ≤ a ∧ a ≤ 'z') ∧ 'A' ≤ b ∧ b ≤ 'Z' then a :: '_' :: b :: splitCamel rest
    else a :: splitCamel (b :: rest)
  | cs => cs

/-- `_pg_col_to_sf`. -/
def pgColToSf (P : Platform) (name : String) : String :=
  String.ofList ((splitCamel name.toList).flatMap P.upperChar)

/-- `_JSONB_SF_COLS`. -/
def jsonbSfCols (P : Platform) : List String := jsonbCols.map (pgColToSf P)

theorem pgColToSf_ascii (P : Platform) {name : String}
    (h : ∀ c ∈ splitCamel name.toList, c.toNat < 128) :
    pgColToSf P name = String.ofList ((splitCamel name.toList).map Char.toUpper) := by
  rw [pgColToSf, List.flatMap_congr fun c hc => P.upperChar_ascii c (h c hc), List.map_eq_flatMap]

theorem jsonbSfCols_eq (P : Platform) : jsonbSfCols P = ["METADATA", "TAGS"] := by
  rw [jsonbSfCols, jsonbCols, List.map_cons, List.map_cons, List.map_nil,
    pgColToSf_ascii P (by simp [splitCamel]), pgColToSf_ascii P (by simp [splitCamel])]
  decide

/-- No key column is a JSONB column. -/
theorem notMem_jsonbSfCols_of_pk (P : Platform) {sfTable c : String} (h : c ∈ pkOf sfTable) :
    c ∉ jsonbSfCols P := by
  rw [jsonbSfCols_eq]
  cases hpk : pkCols.get? sfTable with
  | none =>
    rw [pkOf, hpk] at h
    simp at h
  | some pk =>
    rw [pkOf, hpk, Option.getD_some] at h
    have hmem : (sfTable, pk) ∈ pkCols.entries := Dict.get?_eq_some_iff.mp hpk
    have hall : ∀ p ∈ pkCols.entries, ∀ c ∈ p.2, c ∉ ["METADATA", "TAGS"] := by decide
    exact hall _ hmem c h

/-! ### Rows -/

/-- The value `_row_to_sf` stores for a column. -/
def convertValue (pgKey : String) (val : PyVal) : PyVal :=
  if pgKey ∈ jsonbCols then
    match val with
    | .none => .none
    | .dict kvs => .str (Json.obj kvs).dumps
    | .list xs => .str (Json.arr xs).dumps
    | val => val
  else val

/-- `_row_to_sf`. -/
def rowToSf (P : Platform) (row : Row) : Row :=
  Dict.ofPairs (row.entries.map fun p => (pgColToSf P p.1, convertValue p.1 p.2))

/-- `row.get(c)`. -/
def cell (row : Row) (c : String) : PyVal := (row.get? c).getD .none

theorem mem_keys_rowToSf {P : Platform} {row : Row} {c : String} :
    c ∈ (rowToSf P row).keys ↔ ∃ pgKey ∈ row.keys, pgColToSf P pgKey = c := by
  rw [rowToSf, Dict.mem_keys_ofPairs, List.map_map, Dict.keys]
  simp only [List.mem_map, Function.comp_apply, exists_exists_and_eq_and]

/-- With distinct converted names the converted row has one entry per column, in order. -/
theorem entries_rowToSf {P : Platform} {row : Row} (h : (row.keys.map (pgColToSf P)).Nodup) :
    (rowToSf P row).entries =
      row.entries.map fun p => (pgColToSf P p.1, convertValue p.1 p.2) := by
  apply Dict.entries_ofPairs
  rw [List.map_map]
  rw [Dict.keys, List.map_map] at h
  exact h

end PgSnowflakeCdc
