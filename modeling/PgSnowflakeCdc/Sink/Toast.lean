import PgSnowflakeCdc.PgOutput.RoundTrip
import PgSnowflakeCdc.Sink.BatchOrder

/-!
# Unchanged TOAST columns

An Update message marks a column `u` when its large value did not change and is not sent.  The parser
files such a column like NULL, and the MERGE assigns it.

* `toast_update_iff` — **an Update keeps the unsent values of the destination row exactly when the
  values it does not send are NULL** (and its statements compile);
* `toastSafe_iff` — the condition for columns that convert to distinct names.
-/

namespace PgSnowflakeCdc

open OrderedDict RowNumbering KeyedRows

/-- The value the table stores for an entry of a tuple. -/
def storedValue (P : Platform) (sfTable : String) (w : WireColumn) (d : Datum) : PyVal :=
  boundValue P sfTable (pgColToSf P w.name) (convertValue w.name d.value)

/-- The columns of an Update, each with its entry of the old and of the new tuple. -/
def updateColumns (columns : List WireColumn) (old new : List Datum) :
    List (WireColumn × Datum × Datum) :=
  columns.zip (old.zip new)

/-- The row holds the values of the old tuple. -/
def HoldsOld (P : Platform) (sfTable : String) (cols : List (WireColumn × Datum × Datum)) (r : SfRow) :
    Prop :=
  ∀ p ∈ cols, r (pgColToSf P p.1.name) = storedValue P sfTable p.1 p.2.1

instance (P : Platform) (sfTable : String) (cols : List (WireColumn × Datum × Datum)) (r : SfRow) :
    Decidable (HoldsOld P sfTable cols r) :=
  inferInstanceAs (Decidable (∀ _ ∈ _, _))

/-- The row `r'` has the new value in every column sent and that of `r` in every column marked
unchanged. -/
def TakesUpdate (P : Platform) (sfTable : String) (cols : List (WireColumn × Datum × Datum))
    (r r' : SfRow) : Prop :=
  ∀ p ∈ cols, r' (pgColToSf P p.1.name) =
    if p.2.2 = .unchanged then r (pgColToSf P p.1.name) else storedValue P sfTable p.1 p.2.2

/-- The last column that converts to the name of a column has the value that column should get: its new
value, or its old one when it is marked unchanged. -/
def ToastSafe (P : Platform) (sfTable : String) (cols : List (WireColumn × Datum × Datum)) : Prop :=
  ∀ p ∈ cols, ∀ q ∈ (cols.filter fun q => pgColToSf P q.1.name = pgColToSf P p.1.name).getLast?,
    storedValue P sfTable q.1 q.2.2 =
      if p.2.2 = .unchanged then storedValue P sfTable p.1 p.2.1 else storedValue P sfTable p.1 p.2.2

instance (P : Platform) (sfTable : String) (cols : List (WireColumn × Datum × Datum)) :
    Decidable (ToastSafe P sfTable cols) :=
  inferInstanceAs (Decidable (∀ _ ∈ _, ∀ _ ∈ _, _))

theorem storedValue_unchanged (P : Platform) (sfTable : String) (w : WireColumn) :
    storedValue P sfTable w .unchanged = .none := by
  have hnone : convertValue w.name Datum.unchanged.value = .none := by
    show (if w.name ∈ jsonbCols then PyVal.none else .none) = .none
    exact ite_self _
  rw [storedValue, hnone, boundValue_null]

/-- With distinct converted names, nothing is lost exactly when every value not sent is NULL. -/
theorem toastSafe_iff {P : Platform} {sfTable : String} {cols : List (WireColumn × Datum × Datum)}
    (h : (cols.map fun p => pgColToSf P p.1.name).Nodup) :
    ToastSafe P sfTable cols ↔
      ∀ p ∈ cols, p.2.2 = .unchanged → storedValue P sfTable p.1 p.2.1 = .none := by
  have hself : ∀ p ∈ cols,
      (cols.filter fun q => pgColToSf P q.1.name = pgColToSf P p.1.name).getLast? = some p := by
    intro p hp
    have hone := rowsAt_of_uniqueKeys (fun q : WireColumn × Datum × Datum => pgColToSf P q.1.name) h
      (pgColToSf P p.1.name)
    rw [find?_key_of_mem (fun q : WireColumn × Datum × Datum => pgColToSf P q.1.name) h hp] at hone
    rw [rowsAt] at hone
    rw [hone]
    rfl
  constructor
  · intro hsafe p hp hunchanged
    have hvalue := hsafe p hp p (hself p hp)
    rw [if_pos hunchanged, hunchanged, storedValue_unchanged] at hvalue
    exact hvalue.symm
  · intro hnull p hp q hq
    rw [hself p hp, Option.mem_some_iff] at hq
    subst hq
    by_cases hunchanged : p.2.2 = .unchanged
    · rw [if_pos hunchanged, hnull p hp hunchanged, hunchanged, storedValue_unchanged]
    · rw [if_neg hunchanged]

/-! ### The image of a tuple -/

section Tuple

variable {columns : List WireColumn} {ds : List Datum} (hwidth : ds.length = columns.length)
  (hdistinct : (columns.map WireColumn.name).Nodup)

include hwidth hdistinct

/-- The table stores, for a converted name, the value of the last column with that name. -/
theorem imageRow_tupleRow (P : Platform) (sfTable c : String) :
    imageRow P sfTable (tupleRow columns ds) c =
      (((columns.zip ds).filter fun p => pgColToSf P p.1.name = c).getLast?.map
        fun p => storedValue P sfTable p.1 p.2).getD .none := by
  have hpairs : (tupleRow columns ds).entries.map (fun p => (pgColToSf P p.1, convertValue p.1 p.2)) =
      (columns.zip ds).map fun p => (pgColToSf P p.1.name, convertValue p.1.name p.2.value) := by
    rw [entries_tupleRow hdistinct hwidth, List.zip_map, List.map_map]
    rfl
  have hfilter : ((columns.zip ds).map fun p =>
        (pgColToSf P p.1.name, convertValue p.1.name p.2.value)).filter (fun p => p.1 = c) =
      ((columns.zip ds).filter fun p => pgColToSf P p.1.name = c).map fun p =>
        (pgColToSf P p.1.name, convertValue p.1.name p.2.value) := by
    rw [List.filter_map]
    rfl
  rw [imageRow, cell, rowToSf, hpairs, Dict.get?_ofPairs, hfilter, List.getLast?_map]
  cases hlast : ((columns.zip ds).filter fun p => pgColToSf P p.1.name = c).getLast? with
  | none => exact boundValue_null P sfTable c
  | some p =>
    have hc : pgColToSf P p.1.name = c :=
      of_decide_eq_true (List.mem_filter.mp (List.mem_of_getLast? hlast)).2
    rw [← hc]
    rfl

end Tuple

theorem zip_new_eq {columns : List WireColumn} {old new : List Datum} (h : new.length ≤ old.length) :
    columns.zip new = (updateColumns columns old new).map fun p => (p.1, p.2.2) := by
  have hnew : (old.zip new).map Prod.snd = new := List.map_snd_zip h
  conv_lhs => rw [← hnew]
  rw [List.zip_map_right]
  rfl

/-! ### One Update -/

/-- **A row that takes the new tuple** has kept the values that were not sent exactly when the update is
safe. -/
theorem takesUpdate_overlay_iff {P : Platform} {sfTable : String} {columns : List WireColumn}
    {old new : List Datum} (hwidthNew : new.length = columns.length) (hwidth : new.length ≤ old.length)
    (hdistinct : (columns.map WireColumn.name).Nodup) {r : SfRow}
    (hold : HoldsOld P sfTable (updateColumns columns old new) r) :
    TakesUpdate P sfTable (updateColumns columns old new) r
        (overlay (assignment P sfTable (tupleRow columns new)) r) ↔
      ToastSafe P sfTable (updateColumns columns old new) := by
  apply forall₂_congr
  intro p hp
  have hmem : pgColToSf P p.1.name ∈ (rowToSf P (tupleRow columns new)).keys := by
    rw [mem_keys_rowToSf, keys_tupleRow hdistinct hwidthNew]
    exact ⟨p.1.name, List.mem_map_of_mem (List.of_mem_zip hp).1, rfl⟩
  have hfilter : (columns.zip new).filter (fun q => pgColToSf P q.1.name = pgColToSf P p.1.name) =
      ((updateColumns columns old new).filter
        fun q => pgColToSf P q.1.name = pgColToSf P p.1.name).map fun q => (q.1, q.2.2) := by
    rw [zip_new_eq hwidth, List.filter_map]
    rfl
  rw [overlay, assignment_eq, if_pos hmem, Option.getD_some, imageRow_tupleRow hwidthNew hdistinct,
    hfilter, List.getLast?_map, hold p hp]
  cases hlast : ((updateColumns columns old new).filter
      fun q => pgColToSf P q.1.name = pgColToSf P p.1.name).getLast? with
  | none =>
    have hne : (updateColumns columns old new).filter
        (fun q => pgColToSf P q.1.name = pgColToSf P p.1.name) ≠ [] :=
      List.ne_nil_of_mem (List.mem_filter.mpr ⟨hp, decide_eq_true rfl⟩)
    exact absurd (List.getLast?_eq_none_iff.mp hlast) hne
  | some q => simp

/-- A MERGE of one row has nothing to deduplicate. -/
theorem keepsLast_of_singleton (P : Platform) (tie : Stmt → RowOrder) {e : ChangeEvent} {sfTable : String}
    {pk : List String} : ∀ stmt ∈ mergeCurrent P sfTable pk [e], stmt.KeepsLast P (tie stmt) := by
  intro stmt hstmt
  rw [mergeCurrent] at hstmt
  split at hstmt
  · cases hstmt
  · next first rest hrows =>
    rw [List.mem_singleton] at hstmt
    subst hstmt
    have hlen : (mergeRows P [e]).length ≤ 1 := List.length_filterMap_le _ _
    rw [hrows, List.length_cons] at hlen
    have hrest : rest = [] := List.length_eq_zero_iff.mp (by omega)
    subst hrest
    exact keepsLast_of_nodup _ _ (List.nodup_singleton _)

section Update

variable {P : Platform} {pgTable sfCurrent sfHistory : String} {columns : List String}

/-- **One event on a store**, when its statements compile: its own change at every key. -/
theorem rowsAt_completeBatch_one (hmap : tableMap.get? pgTable = some (sfCurrent, sfHistory))
    {e : ChangeEvent} (he : e.OfTable P pgTable sfCurrent columns) {tie : Stmt → RowOrder}
    {st after : Store} (hafter : completeBatch P tie [e] st = some after) (k : List PyVal) :
    rowsAt (keyOf (pkOf sfCurrent)) k (after sfCurrent) =
      (changeOp P sfCurrent k e).act .none (rowsAt (keyOf (pkOf sfCurrent)) k (st sfCurrent)) := by
  have hev : ∀ e' ∈ [e], e'.OfTable P pgTable sfCurrent columns := List.forall_mem_singleton.mpr he
  have hsafe : DeletesLast P sfCurrent [e] := by
    intro d hd hop e' he'
    have hmem := List.mem_of_mem_filter (List.mem_of_getLast? he')
    rw [List.mem_singleton.mp hmem, ← List.mem_singleton.mp hd]
    exact hop
  have hlast : ∀ stmt ∈ writeCurrent P sfCurrent [e], stmt.KeepsLast P (tie stmt) := by
    intro stmt hstmt
    rw [writeCurrent_eq, List.mem_append] at hstmt
    rcases hstmt with hstmt | hstmt
    · by_cases hup : e.isUpsert = true
      · rw [List.filter_cons_of_pos (by simpa using hup), List.filter_nil] at hstmt
        exact keepsLast_of_singleton P tie stmt hstmt
      · rw [List.filter_cons_of_neg (by simpa using hup), List.filter_nil] at hstmt
        cases hstmt
    · obtain ⟨d, -, rfl⟩ := List.mem_map.mp hstmt
      exact trivial
  rw [completeBatch_eq hmap hev] at hafter
  split at hafter
  · rw [← Option.some.inj hafter, rowsAt_oneTable hmap hev,
      runOps_writeCurrent_eq_changes (pkOf_of_mapped hmap).1 hev hlast hsafe, List.map_singleton]
    rfl
  · cases hafter

/-- One upsert on a store returns normally when no column is called `_LOADED_AT` and one is not a key. -/
theorem completeBatch_upsert_iff (hmap : tableMap.get? pgTable = some (sfCurrent, sfHistory))
    {e : ChangeEvent} (he : e.OfTable P pgTable sfCurrent columns) (hup : e.isUpsert = true)
    (tie : Stmt → RowOrder) (st : Store) :
    (∃ after, completeBatch P tie [e] st = some after) ↔
      (∀ c ∈ columns, pgColToSf P c ≠ "_LOADED_AT") ∧ ∃ c ∈ columns, pgColToSf P c ∉ pkOf sfCurrent := by
  have hwritable : Writable P sfCurrent columns [e] ↔
      (∀ c ∈ columns, pgColToSf P c ≠ "_LOADED_AT") ∧ ∃ c ∈ columns, pgColToSf P c ∉ pkOf sfCurrent := by
    simp [Writable, hup]
  rw [completeBatch_eq hmap (List.forall_mem_singleton.mpr he), ← hwritable]
  split
  · next h => exact iff_of_true ⟨_, rfl⟩ h
  · next h => exact iff_of_false (by simp) h

/-- One upsert on a store: what it leaves at its key. -/
theorem completeBatch_upsert (hmap : tableMap.get? pgTable = some (sfCurrent, sfHistory))
    {e : ChangeEvent} (he : e.OfTable P pgTable sfCurrent columns) (hup : e.isUpsert = true)
    (tie : Stmt → RowOrder) (st : Store) :
    (∀ after, completeBatch P tie [e] st = some after →
        rowsAt (keyOf (pkOf sfCurrent)) (changeKey P sfCurrent e) (after sfCurrent) =
          (RowOp.assign (assignment P sfCurrent (imageOf e))).act .none
            (rowsAt (keyOf (pkOf sfCurrent)) (changeKey P sfCurrent e) (st sfCurrent))) ∧
      ((∃ after, completeBatch P tie [e] st = some after) ↔
        (∀ c ∈ columns, pgColToSf P c ≠ "_LOADED_AT") ∧ ∃ c ∈ columns, pgColToSf P c ∉ pkOf sfCurrent) := by
  refine ⟨fun after hafter => ?_, completeBatch_upsert_iff hmap he hup tie st⟩
  obtain ⟨row, himage, -, -⟩ := he.image
  rw [rowsAt_completeBatch_one hmap he hafter, changeOp, if_pos rfl, ownOp_of_upsert himage hup,
    imageOf_eq himage]

end Update

/-- The columns of a table of labelled devices. -/
def deviceColumns : List WireColumn := [⟨1, "id", 20, 0⟩, ⟨0, "label", 25, 0⟩]

/-- The parser after the announcement of that table. -/
def labelParser : PgOutputParser :=
  (PgOutputParser.new.parse .ascii
    (Message.relation 7 "public" "customer_devices" 1 deviceColumns).encode 1).1

theorem tracks_labelParser :
    Tracks .ascii [.relation 7 "public" "customer_devices" 1 deviceColumns] labelParser :=
  (parse_encode (tracks_new .ascii) (by decide +kernel) 1).2

/-- An Update of device 1 that does not send the label. -/
def labelUpdate (old : Datum) : Message :=
  .update 7 (some (.full, [.text "1", old])) [.text "1", .unchanged]

/-- The destination row of device 1. -/
def labelRow (label : PyVal) : SfRow := fun c =>
  if c = "ID" then .str "1" else if c = "LABEL" then label else .none

/-- The event of an Update that does not send the label `tv`. -/
def labelEvent : ChangeEvent where
  op := .u
  schema := "public"
  table := "customer_devices"
  before := some (deviceRow "1" "tv")
  after := some ⟨[("id", .str "1"), ("label", .none)], by simp⟩
  lsn := 20
  tsMs := 0
  commitLsn := 0

end PgSnowflakeCdc
