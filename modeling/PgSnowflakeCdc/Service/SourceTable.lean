import PgSnowflakeCdc.PgOutput.Wire
import PgSnowflakeCdc.Sink.Sequential

/-!
# The row changes of a stream

What a pgoutput stream means for a replicated table, read off the messages alone: an Insert or
Update assigns the columns of its new tuple to the row of its key, an Update that carries another
key in its old tuple moves the row, a Delete removes the row of its key.  Columns go by their names
in the destination, values are the values of its columns.

* `applyStream` — a stream, applied to a table in WAL order;
* `ReplicableStream` — the streams the service replicates faithfully;
* `assignment_tupleRow`, `rowKey_tupleRow` — the row an event carries for a tuple assigns the
  columns of the tuple.
-/

namespace PgSnowflakeCdc

open OrderedDict KeyedRows

/-! ### Tuples -/

/-- The value a column takes from a tuple entry; an unchanged column takes none. -/
def Datum.assigned (P : Platform) (sfTable c : String) : Datum → Option PyVal
  | .null => some .none
  | .unchanged => none
  | .text s => some (boundValue P sfTable c (.str s))
  | .binary bs => some (boundValue P sfTable c (.bytes bs))

/-- The columns a tuple assigns. -/
def tupleAssignment (P : Platform) (sfTable : String) (columns : List WireColumn) (ds : List Datum) :
    String → Option PyVal := fun c =>
  (find c ((columns.map fun col => pgColToSf P col.name).zip ds)).bind (Datum.assigned P sfTable c)

/-- The primary key of a tuple. -/
def tupleKey (P : Platform) (sfTable : String) (columns : List WireColumn) (ds : List Datum) :
    List PyVal :=
  (pkOf sfTable).map fun c => (tupleAssignment P sfTable columns ds c).getD .none

/-! ### Row changes -/

/-- The change of a row that a message reports. -/
inductive RowChange where
  | upsert (old : Option (List Datum)) (new : List Datum) : RowChange
  | delete (old : List Datum) : RowChange

/-- The relation and the row change of a message. -/
def Message.rowChange : Message → Option (UInt32 × RowChange)
  | .insert oid new => some (oid, .upsert none new)
  | .update oid old new => some (oid, .upsert (old.map Prod.snd) new)
  | .delete oid _ old => some (oid, .delete old)
  | _ => none

namespace RowChange

/-- The tuple whose row is written or removed. -/
def tuple : RowChange → List Datum
  | .upsert _ new => new
  | .delete old => old

/-- The old tuple of an Update, if it carries one. -/
def oldTuple : RowChange → Option (List Datum)
  | .upsert old _ => old
  | .delete _ => none

def isUpsert : RowChange → Bool
  | .upsert _ _ => true
  | .delete _ => false

/-- The change applied to the table. -/
def apply (P : Platform) (sfTable : String) (columns : List WireColumn) (change : RowChange)
    (t : Table) : Table :=
  match change with
  | .upsert old new =>
    let moved := match old with
      | some old =>
        if tupleKey P sfTable columns old = tupleKey P sfTable columns new then t
        else removeAt (keyOf (pkOf sfTable)) (tupleKey P sfTable columns old) t
      | none => t
    upsertAt .none (keyOf (pkOf sfTable)) (tupleKey P sfTable columns new)
      (tupleAssignment P sfTable columns new) moved
  | .delete old => removeAt (keyOf (pkOf sfTable)) (tupleKey P sfTable columns old) t

/-- A change of a row of a table with the columns `names`: their converted names are distinct, no
column is unchanged, the key is not null, and an Update keeps it. -/
structure Replicable (P : Platform) (sfTable : String) (names : List String)
    (columns : List WireColumn) (change : RowChange) : Prop where
  listed : columns.map WireColumn.name = names
  distinct : (names.map (pgColToSf P)).Nodup
  changed : ∀ d ∈ change.tuple, d ≠ .unchanged
  keyNonNull : PyVal.none ∉ tupleKey P sfTable columns change.tuple
  keyKept : ∀ old ∈ change.oldTuple,
    tupleKey P sfTable columns old = tupleKey P sfTable columns change.tuple

instance (P : Platform) (sfTable : String) (names : List String) (columns : List WireColumn)
    (change : RowChange) : Decidable (change.Replicable P sfTable names columns) :=
  decidable_of_iff (columns.map WireColumn.name = names ∧ (names.map (pgColToSf P)).Nodup ∧
      (∀ d ∈ change.tuple, d ≠ .unchanged) ∧
      PyVal.none ∉ tupleKey P sfTable columns change.tuple ∧
      ∀ old ∈ change.oldTuple,
        tupleKey P sfTable columns old = tupleKey P sfTable columns change.tuple)
    ⟨fun h => ⟨h.1, h.2.1, h.2.2.1, h.2.2.2.1, h.2.2.2.2⟩,
      fun h => ⟨h.listed, h.distinct, h.changed, h.keyNonNull, h.keyKept⟩⟩

end RowChange

/-! ### Streams -/

/-- What a message changes in the table replicated from `pgTable`. -/
def applyMessage (P : Platform) (pgTable sfTable : String) (earlier : List Message) (m : Message)
    (t : Table) : Table :=
  match m.rowChange with
  | none => t
  | some (oid, change) =>
    match latestRelation earlier oid with
    | none => t
    | some a =>
      if normalizePgTable a.table = pgTable then change.apply P sfTable a.columns t else t

/-- A stream, applied in WAL order. -/
def applyStream (P : Platform) (pgTable sfTable : String) :
    (earlier : List Message) → List (ℕ × Message) → Table → Table
  | _, [], t => t
  | earlier, (_, m) :: rest, t =>
    applyStream P pgTable sfTable (m :: earlier) rest (applyMessage P pgTable sfTable earlier m t)

/-- A message that changes a row of a mapped table changes it as the service can replicate. -/
def Message.Replicable (P : Platform) (columnsOf : String → List String) (earlier : List Message)
    (m : Message) : Prop :=
  ∀ oid change a, m.rowChange = some (oid, change) → latestRelation earlier oid = some a →
    ∀ target ∈ tableMap.get? (normalizePgTable a.table),
      change.Replicable P target.1 (columnsOf (normalizePgTable a.table)) a.columns

instance (P : Platform) (columnsOf : String → List String) (earlier : List Message) (m : Message) :
    Decidable (m.Replicable P columnsOf earlier) :=
  decidable_of_iff (∀ p ∈ m.rowChange, ∀ a ∈ latestRelation earlier p.1,
      ∀ target ∈ tableMap.get? (normalizePgTable a.table),
        p.2.Replicable P target.1 (columnsOf (normalizePgTable a.table)) a.columns)
    ⟨fun h oid change a hm ha => h (oid, change) hm a ha, fun h p hm a ha => h p.1 p.2 a hm ha⟩

/-- A well-formed stream whose row changes of mapped tables are replicable; `columnsOf` is the column
list of each table. -/
def ReplicableStream (P : Platform) (columnsOf : String → List String) :
    (earlier : List Message) → List (ℕ × Message) → Prop
  | _, [] => True
  | earlier, (_, m) :: rest => m.WellFormed earlier ∧ m.Replicable P columnsOf earlier ∧
    ReplicableStream P columnsOf (m :: earlier) rest

instance decidableReplicableStream (P : Platform) (columnsOf : String → List String) :
    ∀ (earlier : List Message) (ms : List (ℕ × Message)),
      Decidable (ReplicableStream P columnsOf earlier ms)
  | _, [] => isTrue trivial
  | earlier, (_, m) :: rest =>
    haveI := decidableReplicableStream P columnsOf (m :: earlier) rest
    inferInstanceAs (Decidable (_ ∧ _))

theorem ReplicableStream.wellFormed {P : Platform} {columnsOf : String → List String}
    {earlier : List Message} {ms : List (ℕ × Message)}
    (h : ReplicableStream P columnsOf earlier ms) : WellFormedStream earlier ms := by
  induction ms generalizing earlier with
  | nil => exact trivial
  | cons p ms ih => exact ⟨h.1, ih h.2.2⟩

/-- The tuple of a well-formed message fits its relation. -/
theorem Message.WellFormed.tupleFor {earlier : List Message} {m : Message} (h : m.WellFormed earlier)
    {oid : UInt32} {change : RowChange} (hm : m.rowChange = some (oid, change)) :
    TupleFor earlier oid change.tuple := by
  cases m with
  | insert oid' new =>
    cases hm
    exact h
  | update oid' old new =>
    cases hm
    exact h.2
  | delete oid' kind old =>
    cases hm
    exact h
  | _ => cases hm

/-! ### The row of a tuple -/

section Tuple

variable {P : Platform} {columns : List WireColumn} {ds : List Datum}

/-- Text and bytes are bound as they are. -/
theorem convertValue_value (name : String) (d : Datum) :
    convertValue name d.value = d.value := by
  cases d <;> simp [convertValue, Datum.value]

/-- The bound value of an entry that is not unchanged is the value the column takes. -/
theorem assigned_of_ne_unchanged {d : Datum} (h : d ≠ .unchanged) (sfTable c : String) :
    d.assigned P sfTable c = some (boundValue P sfTable c d.value) := by
  cases d with
  | null => rw [Datum.assigned, Datum.value, boundValue_null]
  | unchanged => exact absurd rfl h
  | text s => rfl
  | binary bs => rfl

variable (hdistinct : ((columns.map WireColumn.name).map (pgColToSf P)).Nodup)
  (hlen : ds.length = columns.length) (hchanged : ∀ d ∈ ds, d ≠ .unchanged)

include hdistinct hlen hchanged

/-- **The row of a tuple assigns the columns of the tuple.** -/
theorem assignment_tupleRow (sfTable : String) :
    assignment P sfTable (tupleRow columns ds) = tupleAssignment P sfTable columns ds := by
  have hn : (columns.map WireColumn.name).Nodup := hdistinct.of_map _
  have hentries : (rowToSf P (tupleRow columns ds)).entries =
      ((columns.map WireColumn.name).zip (ds.map Datum.value)).map fun p =>
        (pgColToSf P p.1, convertValue p.1 p.2) := by
    rw [entries_rowToSf (by rw [keys_tupleRow hn hlen]; exact hdistinct), entries_tupleRow hn hlen]
  funext c
  rw [assignment, Dict.get?, hentries, tupleAssignment]
  clear hentries hn hdistinct
  induction columns generalizing ds with
  | nil => rfl
  | cons col columns ih =>
    cases ds with
    | nil => rfl
    | cons d ds =>
      simp only [List.map_cons, List.zip_cons_cons, find]
      split
      · rw [convertValue_value, Option.map_some, Option.bind_some,
          assigned_of_ne_unchanged (hchanged d List.mem_cons_self)]
      · exact ih (Nat.succ.inj hlen) fun d hd => hchanged d (List.mem_cons_of_mem _ hd)

/-- The row of a tuple has the key of the tuple. -/
theorem rowKey_tupleRow (sfTable : String) :
    rowKey P sfTable (tupleRow columns ds) = tupleKey P sfTable columns ds := by
  rw [rowKey, keyOf, tupleKey, ← assignment_tupleRow hdistinct hlen hchanged]
  apply List.map_congr_left
  intro c _
  rw [assignment, imageRow, cell]
  cases (rowToSf P (tupleRow columns ds)).get? c with
  | none => exact boundValue_null P sfTable c
  | some v => rfl

theorem keyNonNull_tupleRow {sfTable : String} (h : PyVal.none ∉ tupleKey P sfTable columns ds) :
    KeyNonNull P sfTable (tupleRow columns ds) := by
  intro c hc hnull
  rw [← rowKey_tupleRow hdistinct hlen hchanged, rowKey, keyOf] at h
  apply h
  rw [List.mem_map]
  exact ⟨c, hc, by rw [imageRow, hnull, boundValue_null]⟩

end Tuple

/-! ### The event of a row change -/

section Event

variable {P : Platform} {sfTable : String} {names : List String} {columns : List WireColumn}
  {change : RowChange} (h : change.Replicable P sfTable names columns)
  (hlen : change.tuple.length = columns.length) {e : ChangeEvent}
  (himage : e.image = some (tupleRow columns change.tuple))

include h hlen himage

/-- The event of a replicable row change is an event of its table. -/
theorem RowChange.Replicable.ofTable {pgTable : String} (htable : normalizePgTable e.table = pgTable) :
    e.OfTable P pgTable sfTable names := by
  have hdistinct : ((columns.map WireColumn.name).map (pgColToSf P)).Nodup := by
    rw [h.listed]
    exact h.distinct
  refine ⟨htable, _, himage, ?_, keyNonNull_tupleRow hdistinct hlen h.changed h.keyNonNull⟩
  rw [keys_tupleRow (hdistinct.of_map _) hlen, h.listed]

/-- **The event changes a table as the row change does.** -/
theorem RowChange.Replicable.applyChange_eq (hop : e.isUpsert = change.isUpsert) (t : Table) :
    applyChange P sfTable e t = change.apply P sfTable columns t := by
  have hdistinct : ((columns.map WireColumn.name).map (pgColToSf P)).Nodup := by
    rw [h.listed]
    exact h.distinct
  rw [applyChange, himage, hop]
  simp only [rowKey_tupleRow hdistinct hlen h.changed, assignment_tupleRow hdistinct hlen h.changed]
  cases change with
  | upsert old new =>
    cases old with
    | none => rfl
    | some old =>
      have hkept : tupleKey P sfTable columns old = tupleKey P sfTable columns new :=
        h.keyKept old rfl
      simp only [RowChange.apply, if_pos hkept]
      rfl
  | delete old => rfl

end Event

end PgSnowflakeCdc
