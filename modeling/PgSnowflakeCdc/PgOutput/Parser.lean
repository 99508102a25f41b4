import PgSnowflakeCdc.Foundations.BigEndian
import PgSnowflakeCdc.Foundations.OrderedDict
import PgSnowflakeCdc.Values

/-!
# The pgoutput parser (`pgoutput_parser.py`)

The parser reads one message at a time with hand-kept offsets and keeps three things between
messages: the relations announced so far, and the commit LSN and timestamp of the latest Begin.

A Python exception is an `Except.error`.  `parse` catches the kinds its `except` clause lists
(`PyExc.isCaught`); `OverflowError`, which the datetime arithmetic of `_handle_begin` raises, is
not among them.  A handler that has already assigned a field when it fails has changed the parser:
`handleBegin` therefore returns the parser next to its result.
-/

namespace PgSnowflakeCdc

open OrderedDict BigEndian

abbrev Bytes := List UInt8

/-- A row dictionary: column name ↦ value, in column order. -/
abbrev Row := Dict String PyVal

/-! ### Exceptions -/

/-- The exceptions the parser's reads can raise. -/
inductive PyExc where
  | structError : PyExc
  | valueError : PyExc
  | unicodeDecodeError : PyExc
  | indexError : PyExc
  | overflowError : PyExc
deriving DecidableEq

/-- `except (struct.error, ValueError, UnicodeDecodeError, IndexError)`. -/
def PyExc.isCaught : PyExc → Bool
  | .overflowError => false
  | _ => true

/-! ### Characters and text -/

/-- `chr` of a byte. -/
def chr (b : UInt8) : Char := Char.ofNat b.toNat

/-- `bytes.decode("utf-8")`. -/
def utf8Decode (bs : Bytes) : Option String := String.fromUTF8? ⟨bs.toArray⟩

/-- A UTF-8 continuation byte. -/
def isContinuation (b : UInt8) : Bool := 0x80 ≤ b && b ≤ 0xBF

/-- Whether `c` may follow the lead byte `b` (no overlong form, no surrogate, at most U+10FFFF). -/
def isSecond (b c : UInt8) : Bool :=
  if b = 0xE0 then 0xA0 ≤ c && c ≤ 0xBF
  else if b = 0xED then 0x80 ≤ c && c ≤ 0x9F
  else if b = 0xF0 then 0x90 ≤ c && c ≤ 0xBF
  else if b = 0xF4 then 0x80 ≤ c && c ≤ 0x8F
  else isContinuation c

/-- Decoding with `errors="replace"`: one U+FFFD for each maximal ill-formed subpart. -/
def replaceChars : Bytes → List Char
  | [] => []
  | b :: rest =>
    if b < 0x80 then chr b :: replaceChars rest
    else if 0xC2 ≤ b ∧ b ≤ 0xF4 then
      match rest with
      | [] => ['\uFFFD']
      | c :: rest₁ =>
        if ¬ isSecond b c then '\uFFFD' :: replaceChars (c :: rest₁)
        else if b < 0xE0 then
          Char.ofNat (b.toNat % 32 * 64 + c.toNat % 64) :: replaceChars rest₁
        else
          match rest₁ with
          | [] => ['\uFFFD']
          | d :: rest₂ =>
            if ¬ isContinuation d then '\uFFFD' :: replaceChars (d :: rest₂)
            else if b < 0xF0 then
              Char.ofNat (b.toNat % 16 * 4096 + c.toNat % 64 * 64 + d.toNat % 64)
                :: replaceChars rest₂
            else
              match rest₂ with
              | [] => ['\uFFFD']
              | e :: rest₃ =>
                if ¬ isContinuation e then '\uFFFD' :: replaceChars (e :: rest₃)
                else
                  Char.ofNat (b.toNat % 8 * 262144 + c.toNat % 64 * 4096 + d.toNat % 64 * 64
                    + e.toNat % 64) :: replaceChars rest₃
    else '\uFFFD' :: replaceChars rest

/-- `bytes.decode("utf-8", errors="replace")`: the text itself when it is valid UTF-8. -/
def utf8DecodeReplace (bs : Bytes) : String :=
  match utf8Decode bs with
  | some s => s
  | none => String.ofList (replaceChars bs)

/-! ### Reads -/

/-- `struct.unpack_from` of an unsigned big-endian word of `n` bytes. -/
def unpack (n : ℕ) (data : Bytes) (offset : ℕ) : Except PyExc ℕ :=
  if offset + n ≤ data.length then .ok (beNat ((data.drop offset).take n)) else .error .structError

/-- `data[offset]`. -/
def byteAt (data : Bytes) (offset : ℕ) : Except PyExc UInt8 :=
  match data[offset]? with
  | some b => .ok b
  | none => .error .indexError

/-- `_read_cstring`. -/
def readCString (data : Bytes) (offset : ℕ) : Except PyExc (String × ℕ) :=
  match (data.drop offset).idxOf? 0 with
  | none => .error .valueError
  | some len =>
    match utf8Decode ((data.drop offset).take len) with
    | none => .error .unicodeDecodeError
    | some s => .ok (s, offset + len + 1)

/-! ### Parser state and events -/

structure ColumnInfo where
  name : String
  typeOid : ℕ
  isKey : Bool
deriving DecidableEq

structure RelationInfo where
  oid : ℕ
  namespace_ : String
  table : String
  columns : List ColumnInfo
deriving DecidableEq

/-- `'c'` insert, `'u'` update, `'d'` delete. -/
inductive Op where
  | c : Op
  | u : Op
  | d : Op
deriving DecidableEq

structure ChangeEvent where
  op : Op
  schema : String
  table : String
  before : Option Row
  after : Option Row
  lsn : ℕ
  tsMs : ℤ
  commitLsn : ℕ
deriving DecidableEq

structure PgOutputParser where
  relations : Dict ℕ RelationInfo
  currentTsMs : ℤ
  currentCommitLsn : ℕ

/-- `PgOutputParser.__init__`. -/
def PgOutputParser.new : PgOutputParser := ⟨∅, 0, 0⟩

/-! ### Tuples -/

/-- The name `_read_tuple` files column `i` under. -/
def columnName (relation : RelationInfo) (i : ℕ) : String :=
  match relation.columns[i]? with
  | some col => col.name
  | none => "col_" ++ toString i

/-- The column loop of `_read_tuple`: `count` columns left, the next one being column `i`. -/
def readColumns (data : Bytes) (relation : RelationInfo) :
    (count i offset : ℕ) → Row → Except PyExc (Row × ℕ)
  | 0, _, offset, row => .ok (row, offset)
  | count + 1, i, offset, row => do
    let kind := chr (← byteAt data offset)
    let offset := offset + 1
    let colName := columnName relation i
    if kind = 'n' then
      readColumns data relation count (i + 1) offset (row.set colName .none)
    else if kind = 'u' then
      -- unchanged TOAST: recorded like NULL
      readColumns data relation count (i + 1) offset (row.set colName .none)
    else if kind = 't' ∨ kind = 'b' then
      let colLen ← unpack 4 data offset
      let offset := offset + 4
      let raw := (data.drop offset).take colLen
      let value := if kind = 't' then .str (utf8DecodeReplace raw) else .bytes raw
      readColumns data relation count (i + 1) (offset + colLen) (row.set colName value)
    else
      readColumns data relation count (i + 1) offset row

/-- `_read_tuple`. -/
def readTuple (data : Bytes) (offset : ℕ) (relation : RelationInfo) : Except PyExc (Row × ℕ) := do
  let numCols ← unpack 2 data offset
  readColumns data relation numCols 0 (offset + 2) ∅

/-! ### Handlers -/

namespace PgOutputParser

/-- The microseconds since 2000-01-01 that a `datetime` can hold (years 1 to 9999). -/
def InDatetimeRange (tsUs : ℤ) : Prop :=
  -63082281600000000 ≤ tsUs ∧ tsUs < 252455616000000000

instance (tsUs : ℤ) : Decidable (InDatetimeRange tsUs) :=
  inferInstanceAs (Decidable (_ ∧ _))

/-- `_handle_begin`. -/
def handleBegin (P : Platform) (parser : PgOutputParser) (data : Bytes) :
    PgOutputParser × Except PyExc Unit :=
  match unpack 8 data 0 with
  | .error e => (parser, .error e)
  | .ok finalLsn =>
    -- assigned before the timestamp is read
    let parser := { parser with currentCommitLsn := finalLsn }
    match unpack 8 data 8 with
    | .error e => (parser, .error e)
    | .ok word =>
      let tsUs := twosComplement 64 word
      if InDatetimeRange tsUs then ({ parser with currentTsMs := P.tsMs tsUs }, .ok ())
      else (parser, .error .overflowError)

/-- The column loop of `_handle_relation`. -/
def readRelationColumns (data : Bytes) : (numCols offset : ℕ) → Except PyExc (List ColumnInfo)
  | 0, _ => .ok []
  | numCols + 1, offset => do
    let flags ← byteAt data offset
    let (colName, offset) ← readCString data (offset + 1)
    let typeOid ← unpack 4 data offset
    let columns ← readRelationColumns data numCols (offset + 4 + 4)
    return ⟨colName, typeOid, flags &&& 1 = 1⟩ :: columns

/-- `_handle_relation`. -/
def handleRelation (parser : PgOutputParser) (data : Bytes) : Except PyExc PgOutputParser := do
  let oid ← unpack 4 data 0
  let (namespace_, offset) ← readCString data 4
  let (table, offset) ← readCString data offset
  -- one byte of replica identity is skipped
  let numCols ← unpack 2 data (offset + 1)
  let columns ← readRelationColumns data numCols (offset + 1 + 2)
  return { parser with relations := parser.relations.set oid ⟨oid, namespace_, table, columns⟩ }

/-- `_event`. -/
def event (parser : PgOutputParser) (op : Op) (relation : RelationInfo) (before after : Option Row)
    (lsn : ℕ) : ChangeEvent where
  op := op
  schema := relation.namespace_
  table := relation.table
  before := before
  after := after
  lsn := lsn
  tsMs := parser.currentTsMs
  commitLsn := parser.currentCommitLsn

/-- `_handle_insert`. -/
def handleInsert (parser : PgOutputParser) (data : Bytes) (lsn : ℕ) :
    Except PyExc (Option ChangeEvent) := do
  let oid ← unpack 4 data 0
  match parser.relations.get? oid with
  | none => return none
  | some relation =>
    if chr (← byteAt data 4) ≠ 'N' then
      return none
    let (after, _) ← readTuple data 5 relation
    return some (parser.event .c relation none (some after) lsn)

/-- `_handle_update`. -/
def handleUpdate (parser : PgOutputParser) (data : Bytes) (lsn : ℕ) :
    Except PyExc (Option ChangeEvent) := do
  let oid ← unpack 4 data 0
  match parser.relations.get? oid with
  | none => return none
  | some relation =>
    let kind := chr (← byteAt data 4)
    if kind = 'K' ∨ kind = 'O' then
      let (before, offset) ← readTuple data 5 relation
      if chr (← byteAt data offset) = 'N' then
        let (after, _) ← readTuple data (offset + 1) relation
        return some (parser.event .u relation (some before) (some after) lsn)
      else
        return some (parser.event .u relation (some before) none lsn)
    else if kind = 'N' then
      let (after, _) ← readTuple data 5 relation
      return some (parser.event .u relation none (some after) lsn)
    else
      return some (parser.event .u relation none none lsn)

/-- `_handle_delete`. -/
def handleDelete (parser : PgOutputParser) (data : Bytes) (lsn : ℕ) :
    Except PyExc (Option ChangeEvent) := do
  let oid ← unpack 4 data 0
  match parser.relations.get? oid with
  | none => return none
  | some relation =>
    let kind := chr (← byteAt data 4)
    if kind = 'K' ∨ kind = 'O' then
      let (before, _) ← readTuple data 5 relation
      return some (parser.event .d relation (some before) none lsn)
    else
      return some (parser.event .d relation none none lsn)

/-! ### The entry point -/

/-- The `except` clause of `parse`: a caught exception skips the message, any other escapes. -/
def catching : Except PyExc (Option ChangeEvent) → Except PyExc (Option ChangeEvent)
  | .ok r => .ok r
  | .error e => if e.isCaught then .ok none else .error e

/-- `parse`: the parser afterwards, and the value returned or the exception that escapes. -/
def parse (P : Platform) (parser : PgOutputParser) (data : Bytes) (lsn : ℕ) :
    PgOutputParser × Except PyExc (Option ChangeEvent) :=
  match data with
  | [] => (parser, .ok none)
  | tag :: body =>
    let msgType := chr tag
    if msgType = 'B' then
      let (parser', r) := parser.handleBegin P body
      (parser', catching (r.map fun _ => none))
    else if msgType = 'R' then
      match parser.handleRelation body with
      | .ok parser' => (parser', .ok none)
      | .error e => (parser, catching (.error e))
    else if msgType = 'I' then (parser, catching (parser.handleInsert body lsn))
    else if msgType = 'U' then (parser, catching (parser.handleUpdate body lsn))
    else if msgType = 'D' then (parser, catching (parser.handleDelete body lsn))
    else (parser, .ok none)

end PgOutputParser

/-! ### Several payloads -/

/-- Feed payloads to one parser, in order. -/
def feed (P : Platform) : PgOutputParser → List (ℕ × Bytes) → List (Except PyExc (Option ChangeEvent))
  | _, [] => []
  | parser, (lsn, data) :: rest =>
    (parser.parse P data lsn).2 :: feed P (parser.parse P data lsn).1 rest

/-- The parser after some payloads. -/
def parserAfter (P : Platform) (parser : PgOutputParser) (changes : List (ℕ × Bytes)) :
    PgOutputParser :=
  changes.foldl (fun parser c => (parser.parse P c.2 c.1).1) parser

/-- The event a `parse` call returned, if any. -/
def returnedEvent : Except PyExc (Option ChangeEvent) → Option ChangeEvent
  | .ok event => event
  | .error _ => none

/-- The events that payloads decode to, in order. -/
def decodedEvents (P : Platform) (parser : PgOutputParser) (changes : List (ℕ × Bytes)) :
    List ChangeEvent :=
  (feed P parser changes).filterMap returnedEvent

theorem feed_append (P : Platform) (xs ys : List (ℕ × Bytes)) (parser : PgOutputParser) :
    feed P parser (xs ++ ys) = feed P parser xs ++ feed P (parserAfter P parser xs) ys := by
  induction xs generalizing parser with
  | nil => rfl
  | cons c xs ih =>
    obtain ⟨lsn, data⟩ := c
    rw [List.cons_append, feed, feed, ih, List.cons_append]
    rfl

theorem parserAfter_append (P : Platform) (xs ys : List (ℕ × Bytes)) (parser : PgOutputParser) :
    parserAfter P parser (xs ++ ys) = parserAfter P (parserAfter P parser xs) ys :=
  List.foldl_append

theorem decodedEvents_append (P : Platform) (xs ys : List (ℕ × Bytes)) (parser : PgOutputParser) :
    decodedEvents P parser (xs ++ ys) =
      decodedEvents P parser xs ++ decodedEvents P (parserAfter P parser xs) ys := by
  rw [decodedEvents, feed_append, List.filterMap_append, decodedEvents, decodedEvents]

end PgSnowflakeCdc
