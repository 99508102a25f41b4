import Mathlib

/-!
# Python values, and what the service takes from outside

* `Json` / `PyVal` — the values a row dictionary can hold: what the pgoutput parser produces
  (`None`, `str`, `bytes`) and what psycopg2 produces for the operational scripts (numbers,
  decoded JSONB containers, and any further scalar through its text);
* `Json.dumps` — `json.dumps` with its defaults (`", "`, `": "`, `ensure_ascii`);
* `Platform` — the functions the code calls whose definition lies outside the repository: the
  Unicode upper-case table, the floating-point timestamp conversions, and Snowflake's column casts,
  `PARSE_JSON` and sort order.
-/

namespace PgSnowflakeCdc

/-! ### JSON containers -/

/-- A decoded JSON value.  A float is kept as its `repr`, which is also how it is serialised. -/
inductive Json where
  | null : Json
  | bool : Bool → Json
  | int : ℤ → Json
  | float : String → Json
  | str : String → Json
  | arr : List Json → Json
  | obj : List (String × Json) → Json

namespace Json

mutual

/-- Structural equality of JSON values. -/
def beq : Json → Json → Bool
  | .null, .null => true
  | .bool a, .bool b => a == b
  | .int a, .int b => a == b
  | .float a, .float b => a == b
  | .str a, .str b => a == b
  | .arr xs, .arr ys => beqItems xs ys
  | .obj xs, .obj ys => beqFields xs ys
  | _, _ => false

def beqItems : List Json → List Json → Bool
  | [], [] => true
  | x :: xs, y :: ys => beq x y && beqItems xs ys
  | _, _ => false

def beqFields : List (String × Json) → List (String × Json) → Bool
  | [], [] => true
  | (k, x) :: xs, (l, y) :: ys => k == l && beq x y && beqFields xs ys
  | _, _ => false

end

mutual

theorem beq_iff : ∀ a b : Json, beq a b = true ↔ a = b
  | .null, b => by cases b <;> simp [beq]
  | .bool _, b => by cases b <;> simp [beq]
  | .int _, b => by cases b <;> simp [beq]
  | .float _, b => by cases b <;> simp [beq]
  | .str _, b => by cases b <;> simp [beq]
  | .arr xs, b => by
    cases b with
    | arr ys => simpa [beq] using beqItems_iff xs ys
    | _ => simp [beq]
  | .obj xs, b => by
    cases b with
    | obj ys => simpa [beq] using beqFields_iff xs ys
    | _ => simp [beq]

theorem beqItems_iff : ∀ xs ys : List Json, beqItems xs ys = true ↔ xs = ys
  | [], ys => by cases ys <;> simp [beqItems]
  | x :: xs, ys => by
    cases ys with
    | nil => simp [beqItems]
    | cons y ys => simp [beqItems, beq_iff x y, beqItems_iff xs ys]

theorem beqFields_iff : ∀ xs ys : List (String × Json), beqFields xs ys = true ↔ xs = ys
  | [], ys => by cases ys <;> simp [beqFields]
  | (k, x) :: xs, ys => by
    cases ys with
    | nil => simp [beqFields]
    | cons p ys =>
      obtain ⟨l, y⟩ := p
      simp [beqFields, beq_iff x y, beqFields_iff xs ys]

end

instance : DecidableEq Json := fun a b => decidable_of_iff (beq a b = true) (beq_iff a b)

/-- Four hexadecimal digits, as in a `\u` escape. -/
def hex4 (n : ℕ) : List Char :=
  [n / 4096 % 16, n / 256 % 16, n / 16 % 16, n % 16].map Nat.digitChar

/-- One character of a JSON string under `ensure_ascii`; astral characters become a surrogate
pair. -/
def escapeChar (c : Char) : List Char :=
  let n := c.toNat
  if n = 0x22 then "\\\"".toList
  else if n = 0x5C then "\\\\".toList
  else if n = 0x0A then "\\n".toList
  else if n = 0x0D then "\\r".toList
  else if n = 0x09 then "\\t".toList
  else if n = 0x0C then "\\f".toList
  else if n = 0x08 then "\\b".toList
  else if 0x20 ≤ n ∧ n ≤ 0x7E then [c]
  else if n < 0x10000 then "\\u".toList ++ hex4 n
  else "\\u".toList ++ hex4 (0xD800 + (n - 0x10000) / 0x400)
    ++ "\\u".toList ++ hex4 (0xDC00 + (n - 0x10000) % 0x400)

/-- A JSON string literal. -/
def quote (s : String) : String := "\"" ++ String.ofList (s.toList.flatMap escapeChar) ++ "\""

mutual

/-- `json.dumps`. -/
def dumps : Json → String
  | .null => "null"
  | .bool b => if b then "true" else "false"
  | .int i => toString i
  | .float r => r
  | .str s => quote s
  | .arr xs => "[" ++ String.intercalate ", " (dumpItems xs) ++ "]"
  | .obj kvs => "\x7b" ++ String.intercalate ", " (dumpFields kvs) ++ "\x7d"

def dumpItems : List Json → List String
  | [] => []
  | x :: xs => dumps x :: dumpItems xs

def dumpFields : List (String × Json) → List String
  | [] => []
  | (k, x) :: kvs => (quote k ++ ": " ++ dumps x) :: dumpFields kvs

end

end Json

/-! ### Row values -/

/-- A value of a row dictionary.  `list` and `dict` are decoded JSON containers; `other` is any
further scalar a database driver delivers (a date, a decimal), through its text. -/
inductive PyVal where
  | none : PyVal
  | bool : Bool → PyVal
  | int : ℤ → PyVal
  | float : String → PyVal
  | str : String → PyVal
  | bytes : List UInt8 → PyVal
  | other : String → PyVal
  | list : List Json → PyVal
  | dict : List (String × Json) → PyVal
deriving DecidableEq

instance : Inhabited PyVal := ⟨.none⟩

/-- `isinstance(val, (dict, list))`. -/
def PyVal.isContainer : PyVal → Bool
  | .dict _ => true
  | .list _ => true
  | _ => false

/-! ### The platform -/

/-- What the service calls and this repository does not contain. -/
structure Platform where
  /-- `str.upper` on one character (some characters have several upper-case characters). -/
  upperChar : Char → List Char
  upperChar_ascii : ∀ c : Char, c.toNat < 128 → upperChar c = [c.toUpper]
  /-- `int(ts_dt.timestamp() * 1000)` for a commit timestamp in microseconds since 2000-01-01. -/
  tsMs : ℤ → ℤ
  /-- `_ts_ms_to_str`: Unix milliseconds as the text bound to a `TIMESTAMP_NTZ`. -/
  tsText : ℤ → String
  /-- Snowflake's `PARSE_JSON`, which raises on a text that is not JSON. -/
  parseJson : PyVal → Option PyVal
  parseJson_null : parseJson .none = some .none
  /-- The value a column (table, column name) holds for a bound parameter: the connector and
  Snowflake cast text and numbers to the column's type, and `NULL` stays `NULL`. -/
  sqlValue : String → String → PyVal → PyVal
  sqlValue_eq_none : ∀ t c v, sqlValue t c v = .none ↔ v = .none
  /-- Whether a value sorts strictly before another under Snowflake's ascending `ORDER BY`. -/
  sortsBefore : PyVal → PyVal → Prop
  sortsBefore_irrefl : ∀ v, ¬ sortsBefore v v

/-- What `PARSE_JSON` stores for a JSON text. -/
def Platform.parsedJson (P : Platform) (v : PyVal) : PyVal := (P.parseJson v).getD .none

@[simp] theorem Platform.parsedJson_null (P : Platform) : P.parsedJson .none = .none := by
  rw [parsedJson, P.parseJson_null, Option.getD_some]

/-- Whether a text begins as a JSON value does. -/
def startsJson (text : String) : Bool :=
  match text.toList with
  | [] => true
  | c :: _ => c.toNat ∈ [0x22, 0x2D, 0x5B, 0x7B] || c.isDigit || text ∈ ["true", "false", "null"]

/-- A concrete platform: ASCII upper case, exact integer timestamps, and column values and JSON kept
as text, in which an integer and its decimal text are the same value. -/
def Platform.ascii : Platform where
  upperChar c := [c.toUpper]
  upperChar_ascii _ _ := rfl
  tsMs us := 946684800000 + us / 1000
  tsText ms := toString ms
  parseJson v := match v with
    | .str text => if startsJson text then some (.str text) else none
    | v => some v
  parseJson_null := rfl
  sqlValue _ _ v := match v with
    | .int i => .str (toString i)
    | v => v
  sqlValue_eq_none := by
    intro t c v
    cases v <;> simp
  sortsBefore v w := ∃ a b : String, v = .str a ∧ w = .str b ∧ a < b
  sortsBefore_irrefl := by
    rintro v ⟨a, b, rfl, hb, hlt⟩
    cases hb
    exact lt_irrefl a hlt

end PgSnowflakeCdc
