import PgSnowflakeCdc.PgOutput.Parser

/-!
# The pgoutput wire format and what a stream of messages denotes

The messages of protocol version 1, their byte encodings, and the reference reading of a stream:
the event each message denotes given the messages before it.  Nothing here mentions the parser's
reads; the reference looks *back along the stream* for the latest Relation of an OID and for the
latest Begin, where the parser keeps state.
-/

namespace PgSnowflakeCdc

open OrderedDict BigEndian

/-! ### Messages -/

/-- One entry of TupleData. -/
inductive Datum where
  | null : Datum
  | unchanged : Datum
  | text : String → Datum
  | binary : Bytes → Datum
deriving DecidableEq

/-- The marker of an old tuple: replica identity key, or the full old row. -/
inductive OldKind where
  | key : OldKind
  | full : OldKind
deriving DecidableEq

structure WireColumn where
  flags : UInt8
  name : String
  typeOid : UInt32
  typeModifier : UInt32
deriving DecidableEq

/-- The message kinds that carry nothing for the parser. -/
inductive SkippedTag where
  | commit : SkippedTag
  | origin : SkippedTag
  | type : SkippedTag
  | truncate : SkippedTag
  | message : SkippedTag
deriving DecidableEq

/-- A pgoutput message.  The commit timestamp counts microseconds since 2000-01-01. -/
inductive Message where
  | begin (finalLsn : UInt64) (commitTs : ℤ) (xid : UInt32) : Message
  | relation (oid : UInt32) (namespace_ table : String) (replicaIdentity : UInt8)
      (columns : List WireColumn) : Message
  | insert (oid : UInt32) (new : List Datum) : Message
  | update (oid : UInt32) (old : Option (OldKind × List Datum)) (new : List Datum) : Message
  | delete (oid : UInt32) (kind : OldKind) (old : List Datum) : Message
  | skipped (tag : SkippedTag) (body : Bytes) : Message
deriving DecidableEq

/-! ### Encoding -/

/-- The byte of an ASCII character. -/
def ascii (c : Char) : UInt8 := UInt8.ofNat c.toNat

def utf8Encode (s : String) : Bytes := s.toUTF8.data.toList

def cString (s : String) : Bytes := utf8Encode s ++ [0]

/-- A length-prefixed value. -/
def sized (bs : Bytes) : Bytes := beBytes 4 bs.length ++ bs

def Datum.encode : Datum → Bytes
  | .null => [ascii 'n']
  | .unchanged => [ascii 'u']
  | .text s => ascii 't' :: sized (utf8Encode s)
  | .binary bs => ascii 'b' :: sized bs

def encodeTuple (ds : List Datum) : Bytes := beBytes 2 ds.length ++ ds.flatMap Datum.encode

def OldKind.tag : OldKind → Char
  | .key => 'K'
  | .full => 'O'

/-- The marker that the handlers take for an old tuple. -/
theorem OldKind.marksOld (kind : OldKind) :
    chr (ascii kind.tag) = 'K' ∨ chr (ascii kind.tag) = 'O' := by
  cases kind with
  | key => exact Or.inl rfl
  | full => exact Or.inr rfl

def WireColumn.encode (c : WireColumn) : Bytes :=
  c.flags :: (cString c.name ++ beBytes 4 c.typeOid.toNat ++ beBytes 4 c.typeModifier.toNat)

def SkippedTag.tag : SkippedTag → Char
  | .commit => 'C'
  | .origin => 'O'
  | .type => 'Y'
  | .truncate => 'T'
  | .message => 'M'

def Message.encode : Message → Bytes
  | .begin finalLsn commitTs xid =>
    ascii 'B' :: (beBytes 8 finalLsn.toNat ++ beBytes 8 (wrap 64 commitTs) ++ beBytes 4 xid.toNat)
  | .relation oid namespace_ table replicaIdentity columns =>
    ascii 'R' :: (beBytes 4 oid.toNat ++ cString namespace_ ++ cString table ++ [replicaIdentity]
      ++ beBytes 2 columns.length ++ columns.flatMap WireColumn.encode)
  | .insert oid new => ascii 'I' :: (beBytes 4 oid.toNat ++ [ascii 'N'] ++ encodeTuple new)
  | .update oid none new => ascii 'U' :: (beBytes 4 oid.toNat ++ [ascii 'N'] ++ encodeTuple new)
  | .update oid (some (kind, old)) new =>
    ascii 'U' :: (beBytes 4 oid.toNat ++ [ascii kind.tag] ++ encodeTuple old ++ [ascii 'N']
      ++ encodeTuple new)
  | .delete oid kind old =>
    ascii 'D' :: (beBytes 4 oid.toNat ++ [ascii kind.tag] ++ encodeTuple old)
  | .skipped tag body => ascii tag.tag :: body

/-! ### The reference reading of a stream

`earlier` is always the list of messages before the current one, latest first. -/

/-- What a Relation message announces. -/
structure Announcement where
  namespace_ : String
  table : String
  columns : List WireColumn
deriving DecidableEq

/-- The latest announcement for an OID. -/
def latestRelation : List Message → UInt32 → Option Announcement
  | [], _ => none
  | .relation oid' namespace_ table _ columns :: earlier, oid =>
    if oid' = oid then some ⟨namespace_, table, columns⟩ else latestRelation earlier oid
  | _ :: earlier, oid => latestRelation earlier oid

/-- The commit LSN and commit timestamp of the latest Begin. -/
def latestBegin : List Message → Option (UInt64 × ℤ)
  | [] => none
  | .begin finalLsn commitTs _ :: _ => some (finalLsn, commitTs)
  | _ :: earlier => latestBegin earlier

/-- The value a tuple entry denotes; NULL and unchanged both denote `None`. -/
def Datum.value : Datum → PyVal
  | .null => .none
  | .unchanged => .none
  | .text s => .str s
  | .binary bs => .bytes bs

/-- The row a tuple denotes: each column's value under the column's own name. -/
def tupleRow (columns : List WireColumn) (ds : List Datum) : Row :=
  if h : (((columns.map WireColumn.name).zip (ds.map Datum.value)).map Prod.fst).Nodup then
    ⟨(columns.map WireColumn.name).zip (ds.map Datum.value), h⟩
  else ∅

section TupleRow

variable {columns : List WireColumn} {ds : List Datum} (hn : (columns.map WireColumn.name).Nodup)
  (hlen : ds.length = columns.length)

include hn hlen

theorem entries_tupleRow :
    (tupleRow columns ds).entries = (columns.map WireColumn.name).zip (ds.map Datum.value) := by
  have hkeys : ((columns.map WireColumn.name).zip (ds.map Datum.value)).map Prod.fst =
      columns.map WireColumn.name := by
    apply List.map_fst_zip
    simp [hlen]
  rw [tupleRow, dif_pos (by rw [hkeys]; exact hn)]

theorem keys_tupleRow : (tupleRow columns ds).keys = columns.map WireColumn.name := by
  rw [Dict.keys, entries_tupleRow hn hlen, List.map_fst_zip]
  simp [hlen]

end TupleRow

/-- The commit LSN that events of this point of the stream carry. -/
def commitLsnAt (earlier : List Message) : ℕ :=
  match latestBegin earlier with
  | some (finalLsn, _) => finalLsn.toNat
  | none => 0

/-- The timestamp that events of this point of the stream carry. -/
def tsMsAt (P : Platform) (earlier : List Message) : ℤ :=
  match latestBegin earlier with
  | some (_, commitTs) => P.tsMs commitTs
  | none => 0

/-- An event about a row of the relation last announced for `oid`, if one was. -/
def rowEvent (P : Platform) (earlier : List Message) (oid : UInt32) (op : Op)
    (before after : Announcement → Option Row) (lsn : ℕ) : Option ChangeEvent :=
  (latestRelation earlier oid).map fun a =>
    { op := op, schema := a.namespace_, table := a.table, before := before a, after := after a,
      lsn := lsn, tsMs := tsMsAt P earlier, commitLsn := commitLsnAt earlier }

/-- The event a message denotes at its place in the stream. -/
def referenceEvent (P : Platform) (earlier : List Message) (lsn : ℕ) :
    Message → Option ChangeEvent
  | .insert oid new =>
    rowEvent P earlier oid .c (fun _ => none) (fun a => some (tupleRow a.columns new)) lsn
  | .update oid old new =>
    rowEvent P earlier oid .u (fun a => old.map fun o => tupleRow a.columns o.2)
      (fun a => some (tupleRow a.columns new)) lsn
  | .delete oid _ old =>
    rowEvent P earlier oid .d (fun a => some (tupleRow a.columns old)) (fun _ => none) lsn
  | _ => none

/-- The events a stream denotes, one entry per message. -/
def referenceEvents (P : Platform) :
    (earlier : List Message) → List (ℕ × Message) → List (Option ChangeEvent)
  | _, [] => []
  | earlier, (lsn, m) :: rest =>
    referenceEvent P earlier lsn m :: referenceEvents P (m :: earlier) rest

/-! ### Well-formedness -/

/-- The value fits its four-byte length field. -/
def Datum.WellFormed : Datum → Prop
  | .text s => (utf8Encode s).length < 2 ^ 32
  | .binary bs => bs.length < 2 ^ 32
  | _ => True

instance : DecidablePred Datum.WellFormed
  | .text _ => inferInstanceAs (Decidable (_ < _))
  | .binary _ => inferInstanceAs (Decidable (_ < _))
  | .null => isTrue trivial
  | .unchanged => isTrue trivial

/-- A tuple for the relation last announced for `oid`: one entry per column of it.  A tuple for an
OID never announced is only bounded by its own length field. -/
structure TupleFor (earlier : List Message) (oid : UInt32) (ds : List Datum) : Prop where
  size : ds.length < 2 ^ 16
  data : ∀ d ∈ ds, d.WellFormed
  width : ∀ a, latestRelation earlier oid = some a → ds.length = a.columns.length

instance (earlier : List Message) (oid : UInt32) (ds : List Datum) :
    Decidable (TupleFor earlier oid ds) :=
  decidable_of_iff (ds.length < 2 ^ 16 ∧ (∀ d ∈ ds, d.WellFormed) ∧
      ∀ a ∈ latestRelation earlier oid, ds.length = a.columns.length)
    ⟨fun h => ⟨h.1, h.2.1, h.2.2⟩, fun h => ⟨h.size, h.data, h.width⟩⟩

/-- A string that a C string can hold. -/
def NulFree (s : String) : Prop := (0 : UInt8) ∉ utf8Encode s

instance (s : String) : Decidable (NulFree s) := inferInstanceAs (Decidable (_ ∉ _))

/-- A well-formed message at its place in the stream. -/
def Message.WellFormed (earlier : List Message) : Message → Prop
  | .begin _ commitTs _ => PgOutputParser.InDatetimeRange commitTs
  | .relation _ namespace_ table _ columns =>
    NulFree namespace_ ∧ NulFree table ∧ columns.length < 2 ^ 16 ∧
      (columns.map WireColumn.name).Nodup ∧ ∀ c ∈ columns, NulFree c.name
  | .insert oid new => TupleFor earlier oid new
  | .update oid old new => (∀ o ∈ old, TupleFor earlier oid o.2) ∧ TupleFor earlier oid new
  | .delete oid _ old => TupleFor earlier oid old
  | .skipped _ _ => True

instance (earlier : List Message) : DecidablePred (Message.WellFormed earlier)
  | .begin _ _ _ => inferInstanceAs (Decidable (PgOutputParser.InDatetimeRange _))
  | .relation _ _ _ _ _ => inferInstanceAs (Decidable (_ ∧ _))
  | .insert _ _ => inferInstanceAs (Decidable (TupleFor _ _ _))
  | .update _ _ _ => inferInstanceAs (Decidable ((∀ _ ∈ _, _) ∧ _))
  | .delete _ _ _ => inferInstanceAs (Decidable (TupleFor _ _ _))
  | .skipped _ _ => isTrue trivial

/-- A well-formed stream. -/
def WellFormedStream : (earlier : List Message) → List (ℕ × Message) → Prop
  | _, [] => True
  | earlier, (_, m) :: rest => m.WellFormed earlier ∧ WellFormedStream (m :: earlier) rest

instance decidableWellFormedStream : ∀ (earlier : List Message) (ms : List (ℕ × Message)),
    Decidable (WellFormedStream earlier ms)
  | _, [] => isTrue trivial
  | earlier, (_, m) :: rest =>
    haveI := decidableWellFormedStream (m :: earlier) rest
    inferInstanceAs (Decidable (_ ∧ _))

end PgSnowflakeCdc
