import PgSnowflakeCdc.Sink.BatchOrder
import PgSnowflakeCdc.Sink.History

/-!
# Changing columns inside a batch

`_merge_current` and `_insert_history` take the column list of the whole statement from its first row.
The rows of a batch have the columns of the relation at the time they were decoded, and an ALTER TABLE
between two of them changes these.

* `HoldsOwn`, `Stmt.KeepsColumns` — what a statement is to do with the entries of its rows;
* `holdsOwn_imageRow_iff` — when the converted row still has all of them;
* `rowsAt_merge_applied` — what the MERGE assigns for a row: the columns of the first one;
* `carries_listed_iff` — this is what the row itself asks for exactly when both list the same columns and
  no entry was lost in the conversion;
* `batch_keepsColumns_iff` — **nothing is lost exactly when the upserts of the batch agree on their
  columns, the history rows have nothing outside the columns of the first, and no entry of a row takes the
  column of another one.**
-/

namespace PgSnowflakeCdc

open OrderedDict RowNumbering KeyedRows

/-! ### What is to be kept -/

/-- What the column of an entry holds when the entry is bound to it. -/
def entryValue (P : Platform) (sfTable : String) (p : String × PyVal) : PyVal :=
  boundValue P sfTable (pgColToSf P p.1) (convertValue p.1 p.2)

/-- The entry can be bound. -/
def EntryBinds (P : Platform) (p : String × PyVal) : Prop :=
  Bindable P (pgColToSf P p.1) (convertValue p.1 p.2)

instance (P : Platform) : DecidablePred (EntryBinds P) :=
  fun _ => inferInstanceAs (Decidable (Bindable _ _ _))

/-- The written row has the value of each entry of the row under the column of the entry. -/
def HoldsOwn (P : Platform) (sfTable : String) (row : Row) (written : SfRow) : Prop :=
  ∀ p ∈ row.entries, EntryBinds P p ∧ written (pgColToSf P p.1) = entryValue P sfTable p

/-- The row has been written over `before`: it has its own values, and elsewhere nothing has changed. -/
structure Carries (P : Platform) (sfTable : String) (row : Row) (before after : SfRow) : Prop where
  own : HoldsOwn P sfTable row after
  others : ∀ c, (∀ name ∈ row.keys, pgColToSf P name ≠ c) → after c = before c

/-- The events that have an image. -/
def imaged (events : List ChangeEvent) : List ChangeEvent := events.filter fun e => e.image.isSome

/-- The engine numbers the row of the `i`-th upsert first among the rows of its key. -/
def AppliesRow (P : Platform) (sfTable : String) (o : RowOrder) (ups : List ChangeEvent) (i : ℕ)
    (e : ChangeEvent) : Prop :=
  ups[i]? = some e ∧ ∀ j e', ups[j]? = some e' →
    changeKey P sfTable e' = changeKey P sfTable e → o.rank i ≤ o.rank j

/-- A MERGE writes the rows of a key, or a new one, with the entries of the event it applies and leaves
their other columns alone; an INSERT appends one row for each image, with all its entries. -/
def Stmt.KeepsColumns (P : Platform) (events : List ChangeEvent) : Stmt → Prop
  | .merge sfTable pk allCols rows =>
    ∀ (o : RowOrder) (t : Table) (i : ℕ) (e : ChangeEvent),
      AppliesRow P sfTable o (events.filter (·.isUpsert)) i e →
      List.Forall₂ (Carries P sfTable (imageOf e))
        (seed .none (rowsAt (keyOf pk) (changeKey P sfTable e) t))
        (rowsAt (keyOf pk) (changeKey P sfTable e)
          ((Stmt.merge sfTable pk allCols rows).onTable P o t))
  | .delete _ _ _ => True
  | .insert sfTable allCols rows =>
    ∀ (o : RowOrder) (t : Table), ∃ written : Table,
      (Stmt.insert sfTable allCols rows).onTable P o t = t ++ written ∧
        List.Forall₂ (fun e => HoldsOwn P sfTable (imageOf e)) (imaged events) written

/-! ### The conversion -/

/-- The conversion of the row loses nothing: every entry can be bound, and entries whose columns get one
name are stored alike. -/
structure Lossless (P : Platform) (sfTable : String) (row : Row) : Prop where
  binds : ∀ p ∈ row.entries, EntryBinds P p
  alike : ∀ p ∈ row.entries, ∀ q ∈ row.entries, pgColToSf P p.1 = pgColToSf P q.1 →
    entryValue P sfTable p = entryValue P sfTable q

instance (P : Platform) (sfTable : String) (row : Row) : Decidable (Lossless P sfTable row) :=
  decidable_of_iff ((∀ p ∈ row.entries, EntryBinds P p) ∧ ∀ p ∈ row.entries, ∀ q ∈ row.entries,
      pgColToSf P p.1 = pgColToSf P q.1 → entryValue P sfTable p = entryValue P sfTable q)
    ⟨fun h => ⟨h.1, h.2⟩, fun h => ⟨h.1, h.2⟩⟩

section Conversion

variable {P : Platform} {sfTable : String} {row : Row} {c : String}

theorem mem_keys_of_entry {p : String × PyVal} (hp : p ∈ row.entries) :
    pgColToSf P p.1 ∈ (rowToSf P row).keys :=
  mem_keys_rowToSf.mpr ⟨p.1, List.mem_map_of_mem hp, rfl⟩

/-- A converted column has the value of one of the entries with that column. -/
theorem exists_entry (hc : c ∈ (rowToSf P row).keys) :
    ∃ p ∈ row.entries, pgColToSf P p.1 = c ∧ cell (rowToSf P row) c = convertValue p.1 p.2 := by
  obtain ⟨v, hv⟩ := Option.ne_none_iff_exists'.mp (mt Dict.get?_eq_none_iff.mp (not_not_intro hc))
  have hcell : cell (rowToSf P row) c = v := by
    rw [cell, hv, Option.getD_some]
  rw [rowToSf, Dict.get?_ofPairs] at hv
  obtain ⟨q, hq, rfl⟩ := Option.map_eq_some_iff.mp hv
  obtain ⟨hmem, hname⟩ := List.mem_filter.mp (List.mem_of_getLast? hq)
  obtain ⟨p, hp, rfl⟩ := List.mem_map.mp hmem
  exact ⟨p, hp, of_decide_eq_true hname, hcell⟩

theorem exists_entry_imageRow (sfTable : String) (hc : c ∈ (rowToSf P row).keys) :
    ∃ p ∈ row.entries, pgColToSf P p.1 = c ∧ imageRow P sfTable row c = entryValue P sfTable p := by
  obtain ⟨p, hp, rfl, hcell⟩ := exists_entry hc
  exact ⟨p, hp, rfl, by rw [imageRow, hcell, entryValue]⟩

/-- **The image has all entries of the row exactly when the conversion loses none.** -/
theorem holdsOwn_imageRow_iff :
    HoldsOwn P sfTable row (imageRow P sfTable row) ↔ Lossless P sfTable row := by
  constructor
  · intro h
    refine ⟨fun p hp => (h p hp).1, fun p hp q hq hname => ?_⟩
    rw [← (h p hp).2, hname]
    exact (h q hq).2
  · intro h p hp
    obtain ⟨q, hq, hname, hvalue⟩ := exists_entry_imageRow sfTable (mem_keys_of_entry hp)
    exact ⟨h.binds p hp, hvalue.trans (h.alike q hq p hp hname)⟩

/-- No value at all can be bound to any column. -/
theorem bindable_none (P : Platform) (c : String) : Bindable P c .none :=
  ⟨rfl, fun _ => by rw [P.parseJson_null]; rfl⟩

/-- The values of the converted row can be bound when the entries can. -/
theorem bindable_cell (h : ∀ p ∈ row.entries, EntryBinds P p) (c : String) :
    Bindable P c (cell (rowToSf P row) c) := by
  by_cases hc : c ∈ (rowToSf P row).keys
  · obtain ⟨p, hp, rfl, hcell⟩ := exists_entry hc
    rw [hcell]
    exact h p hp
  · rw [cell, Dict.get?_eq_none_iff.mpr hc]
    exact bindable_none P c

/-- The parameters of a statement can be bound when each of its cells can. -/
theorem bindable_params {allCols : List String} {rows : List Row}
    (h : ∀ row ∈ rows, ∀ c ∈ allCols, Bindable P c (cell row c)) :
    ∀ params ∈ rows.map fun row => allCols.map (cell row), ∀ p ∈ allCols.zip params,
      Bindable P p.1 p.2 := by
  rw [List.forall_mem_map]
  intro row hrow
  rw [← List.map_prod_left_eq_zip, List.forall_mem_map]
  exact h row hrow

end Conversion

/-! ### The MERGE -/

/-- The columns of a list, with the values of an image. -/
def listedColumns (P : Platform) (sfTable : String) (allCols : List String) (row : Row) :
    String → Option PyVal := fun c =>
  if c ∈ allCols then some (imageRow P sfTable row c) else none

/-- A row of the key whose column `c` is not that of the image. -/
theorem exists_row_differing {P : Platform} {sfTable : String} {row : Row} {c : String}
    (hc : c ∉ pkOf sfTable) :
    ∃ r : SfRow, keyOf (pkOf sfTable) r = rowKey P sfTable row ∧ r c ≠ imageRow P sfTable row c := by
  obtain ⟨v, hv⟩ : ∃ v : PyVal, v ≠ imageRow P sfTable row c := by
    by_cases hnull : imageRow P sfTable row c = .none
    · exact ⟨.bool true, fun h => PyVal.noConfusion (h.trans hnull)⟩
    · exact ⟨.none, fun h => hnull h.symm⟩
  refine ⟨Function.update (imageRow P sfTable row) c v, ?_, by rwa [Function.update_self]⟩
  rw [rowKey, keyOf, keyOf]
  apply List.map_congr_left
  intro c' hc'
  rw [Function.update_of_ne]
  rintro rfl
  exact hc hc'

/-- **Assigning the columns of a list writes the row** exactly when the list holds the columns of the row,
as a column too few is dropped and a column too many is overwritten with NULL, and the conversion of the
row loses nothing. -/
theorem carries_listed_iff {P : Platform} {sfTable : String} {allCols : List String} {row : Row}
    (hkey : KeyNonNull P sfTable row) (hpk : pkOf sfTable ⊆ allCols) :
    (∀ t : Table, List.Forall₂ (Carries P sfTable row)
        (seed .none (rowsAt (keyOf (pkOf sfTable)) (rowKey P sfTable row) t))
        ((RowOp.assign (listedColumns P sfTable allCols row)).act .none
          (rowsAt (keyOf (pkOf sfTable)) (rowKey P sfTable row) t))) ↔
      (∀ c, c ∈ allCols ↔ c ∈ (rowToSf P row).keys) ∧ Lossless P sfTable row := by
  simp only [RowOp.act, List.forall₂_map_right_iff, List.forall₂_same]
  constructor
  · intro hcarries
    have hrow : ∀ r : SfRow, keyOf (pkOf sfTable) r = rowKey P sfTable row →
        Carries P sfTable row r (overlay (listedColumns P sfTable allCols row) r) := by
      intro r hr
      apply hcarries [r] r
      rw [rowsAt, List.filter_cons_of_pos (by simpa using hr), List.filter_nil]
      exact List.mem_singleton_self r
    refine ⟨fun c => ?_, ?_⟩
    · by_contra hdiffer
      have hother : c ∉ pkOf sfTable := by
        intro hc
        exact hdiffer (iff_of_true (hpk hc) (mem_keys_of_cell (hkey c hc)))
      -- a row of the key that has another value there shows the difference
      obtain ⟨r, hr, hv⟩ := @exists_row_differing P sfTable row c hother
      have hwritten := hrow r hr
      by_cases hlisted : c ∈ allCols
      · have hcarried : c ∉ (rowToSf P row).keys := fun h => hdiffer (iff_of_true hlisted h)
        have hkept := hwritten.others c fun name hname hc =>
          hcarried (mem_keys_rowToSf.mpr ⟨name, hname, hc⟩)
        rw [overlay, listedColumns, if_pos hlisted, Option.getD_some] at hkept
        exact hv hkept.symm
      · have hcarried : c ∈ (rowToSf P row).keys := by
          by_contra h
          exact hdiffer (iff_of_false hlisted h)
        obtain ⟨p, hp, rfl, hvalue⟩ := exists_entry_imageRow sfTable hcarried
        have hown := (hwritten.own p hp).2
        rw [overlay, listedColumns, if_neg hlisted, Option.getD_none] at hown
        exact hv (hown.trans hvalue.symm)
    · have himage := (hrow (imageRow P sfTable row) rfl).own
      have hsame : overlay (listedColumns P sfTable allCols row) (imageRow P sfTable row) =
          imageRow P sfTable row := by
        funext c
        rw [overlay, listedColumns]
        split
        · rfl
        · rfl
      rw [hsame] at himage
      exact holdsOwn_imageRow_iff.mp himage
  · rintro ⟨hcols, hlossless⟩ t r -
    refine ⟨fun p hp => ?_, fun c hc => ?_⟩
    · rw [overlay, listedColumns, if_pos ((hcols _).mpr (mem_keys_of_entry hp)), Option.getD_some]
      exact holdsOwn_imageRow_iff.mpr hlossless p hp
    · have hcarried : c ∉ (rowToSf P row).keys := by
        rw [mem_keys_rowToSf]
        rintro ⟨name, hname, hcol⟩
        exact hc name hname hcol
      rw [overlay, listedColumns, if_neg fun h => hcarried ((hcols c).mp h), Option.getD_none]

section Merge

variable {P : Platform} {sfTable : String} {ups : List ChangeEvent} {e₀ : ChangeEvent}
  {rest : List ChangeEvent} (hups : ups = e₀ :: rest)
  (hkeyed : ∀ e ∈ ups, e.KeyedIn P sfTable) (hup : ∀ e ∈ ups, e.isUpsert = true)

include hups hkeyed

theorem pkOf_subset_first : pkOf sfTable ⊆ (rowToSf P (imageOf e₀)).keys := by
  obtain ⟨row, himage, hkey⟩ := hkeyed e₀ (by simp [hups])
  intro c hc
  rw [imageOf_eq himage]
  exact mem_keys_of_cell (hkey c hc)

/-- The key columns are listed, so the source row of an event has the key of the event. -/
theorem keyOf_insertRow {e : ChangeEvent} (he : e ∈ ups) :
    keyOf (pkOf sfTable) (insertRow (rowToSf P (imageOf e₀)).keys (imageRow P sfTable (imageOf e))) =
      changeKey P sfTable e := by
  rw [changeKey_eq (hkeyed e he), keyOf, keyOf]
  apply List.map_congr_left
  intro c hc
  rw [insertRow, if_pos (pkOf_subset_first hups hkeyed hc)]

/-- **What the MERGE does for the row it applies**: it assigns the columns of the first row. -/
theorem rowsAt_merge_applied {rows : List (List PyVal)}
    (hsource : sourceRows P sfTable (rowToSf P (imageOf e₀)).keys rows =
      ups.map fun e => insertRow (rowToSf P (imageOf e₀)).keys (imageRow P sfTable (imageOf e)))
    {o : RowOrder} {i : ℕ} {e : ChangeEvent} (happlies : AppliesRow P sfTable o ups i e) (t : Table) :
    rowsAt (keyOf (pkOf sfTable)) (changeKey P sfTable e)
        ((Stmt.merge sfTable (pkOf sfTable) (rowToSf P (imageOf e₀)).keys rows).onTable P o t) =
      (RowOp.assign (listedColumns P sfTable (rowToSf P (imageOf e₀)).keys (imageOf e))).act .none
        (rowsAt (keyOf (pkOf sfTable)) (changeKey P sfTable e) t) := by
  obtain ⟨hi, hleast⟩ := happlies
  have he : e ∈ ups := List.mem_of_getElem? hi
  obtain ⟨row, himage, hkey⟩ := hkeyed e he
  have hnull : PyVal.none ∉ changeKey P sfTable e := by
    rw [changeKey_of_image himage]
    exact none_notMem_rowKey hkey
  have hfirst : (qualifyFirst (keyOf (pkOf sfTable)) o
      (ups.map fun e => insertRow (rowToSf P (imageOf e₀)).keys (imageRow P sfTable (imageOf e)))).find?
        (fun s => keyOf (pkOf sfTable) s = changeKey P sfTable e) =
      some (insertRow (rowToSf P (imageOf e₀)).keys (imageRow P sfTable (imageOf e))) := by
    rw [← keyOf_insertRow hups hkeyed he]
    apply find?_qualifyFirst (keyOf (pkOf sfTable)) o (i := i)
    · rw [List.getElem?_map, hi, Option.map_some]
    · intro j s hj hs
      rw [List.getElem?_map] at hj
      obtain ⟨e', he', rfl⟩ := Option.map_eq_some_iff.mp hj
      rw [keyOf_insertRow hups hkeyed (List.mem_of_getElem? he'),
        keyOf_insertRow hups hkeyed he] at hs
      exact hleast j e' he' hs
  rw [rowsAt_onTable_merge o sfTable (pkOf sfTable) _ rows (fun _ _ _ => hnull), hsource, mergeOp,
    hfirst]
  have hassign : (fun c => if c ∈ (rowToSf P (imageOf e₀)).keys then
      some (insertRow (rowToSf P (imageOf e₀)).keys (imageRow P sfTable (imageOf e)) c) else none) =
        listedColumns P sfTable (rowToSf P (imageOf e₀)).keys (imageOf e) := by
    funext c
    rw [listedColumns, insertRow]
    split
    · rfl
    · rfl
  rw [← hassign]

include hup

/-- The MERGE of some upserts: the column list is that of the first row. -/
theorem mergeCurrent_first (hpk : pkOf sfTable ≠ []) :
    mergeCurrent P sfTable (pkOf sfTable) ups =
      [.merge sfTable (pkOf sfTable) (rowToSf P (imageOf e₀)).keys
        ((ups.map fun e => rowToSf P (imageOf e)).map fun row =>
          (rowToSf P (imageOf e₀)).keys.map (cell row))] := by
  rw [mergeCurrent, mergeRows_eq hpk hkeyed hup, hups]
  rfl

end Merge

/-- Every row of a batch is applied under some numbering. -/
theorem appliesRow_pickFirst (P : Platform) (sfTable : String) {ups : List ChangeEvent} {i : ℕ}
    {e : ChangeEvent} (hi : ups[i]? = some e) : AppliesRow P sfTable (pickFirst i) ups i e := by
  refine ⟨hi, fun j e' _ _ => ?_⟩
  show Equiv.swap 0 i i ≤ Equiv.swap 0 i j
  rw [Equiv.swap_apply_right]
  exact Nat.zero_le _

/-- **The MERGE keeps the columns of its rows exactly when they all list the columns of the first** and
their conversion loses nothing. -/
theorem merge_keepsColumns_iff {P : Platform} {sfTable : String} {events : List ChangeEvent}
    {e₀ : ChangeEvent} {rest : List ChangeEvent} (hups : events.filter (·.isUpsert) = e₀ :: rest)
    (hkeyed : ∀ e ∈ events.filter (·.isUpsert), e.KeyedIn P sfTable) :
    (Stmt.merge sfTable (pkOf sfTable) (rowToSf P (imageOf e₀)).keys
        (((events.filter (·.isUpsert)).map fun e => rowToSf P (imageOf e)).map fun row =>
          (rowToSf P (imageOf e₀)).keys.map (cell row))).KeepsColumns P events ↔
      ∀ e ∈ events.filter (·.isUpsert),
        (∀ c, c ∈ (rowToSf P (imageOf e₀)).keys ↔ c ∈ (rowToSf P (imageOf e)).keys) ∧
          Lossless P sfTable (imageOf e) := by
  have hpk := pkOf_subset_first hups hkeyed
  have hsource : sourceRows P sfTable (rowToSf P (imageOf e₀)).keys
      (((events.filter (·.isUpsert)).map fun e => rowToSf P (imageOf e)).map fun row =>
        (rowToSf P (imageOf e₀)).keys.map (cell row)) =
      (events.filter (·.isUpsert)).map fun e =>
        insertRow (rowToSf P (imageOf e₀)).keys (imageRow P sfTable (imageOf e)) := by
    rw [sourceRows_converted_eq, List.map_map]
    rfl
  have happlied := fun {o : RowOrder} {i : ℕ} {e : ChangeEvent} =>
    @rowsAt_merge_applied P sfTable _ e₀ rest hups hkeyed _ hsource o i e
  have hcarries : ∀ e ∈ events.filter (·.isUpsert),
      (∀ t : Table, List.Forall₂ (Carries P sfTable (imageOf e))
          (seed .none (rowsAt (keyOf (pkOf sfTable)) (changeKey P sfTable e) t))
          ((RowOp.assign (listedColumns P sfTable (rowToSf P (imageOf e₀)).keys
            (imageOf e))).act .none (rowsAt (keyOf (pkOf sfTable)) (changeKey P sfTable e) t))) ↔
        (∀ c, c ∈ (rowToSf P (imageOf e₀)).keys ↔ c ∈ (rowToSf P (imageOf e)).keys) ∧
          Lossless P sfTable (imageOf e) := by
    intro e he
    obtain ⟨row, himage, hkey⟩ := hkeyed e he
    rw [changeKey_of_image himage, imageOf_eq himage]
    exact carries_listed_iff hkey hpk
  constructor
  · intro hkeeps e he
    obtain ⟨i, hi⟩ := List.mem_iff_getElem?.mp he
    refine (hcarries e he).mp fun t => ?_
    have happlies := appliesRow_pickFirst P sfTable hi
    rw [← happlied happlies t]
    exact hkeeps (pickFirst i) t i e happlies
  · intro hcols o t i e happlies
    have he : e ∈ events.filter (·.isUpsert) := List.mem_of_getElem? happlies.1
    rw [happlied happlies t]
    exact (hcarries e he).mpr (hcols e he) t

/-! ### The history INSERT -/

/-- The columns that `_insert_history` adds to a row. -/
def auditColumns : List String := ["_CDC_TS", "_CDC_LSN", "_CDC_OP"]

/-- Their values. -/
def auditValue (P : Platform) (e : ChangeEvent) (c : String) : PyVal :=
  if c = "_CDC_TS" then .str (P.tsText e.tsMs)
  else if c = "_CDC_LSN" then .int e.lsn
  else .str (opLabel e.op)

theorem historyRows_eq (P : Platform) (events : List ChangeEvent) :
    historyRows P events = (imaged events).map fun e => historyRow P e (imageOf e) := by
  induction events with
  | nil => rfl
  | cons e events ih =>
    rw [historyRows, imaged] at ih ⊢
    cases himage : e.image with
    | none =>
      rw [List.filterMap_cons_none (by rw [himage]; rfl), List.filter_cons_of_neg (by simp [himage]), ih]
    | some row =>
      rw [List.filterMap_cons_some (by rw [himage]; rfl), List.filter_cons_of_pos (by simp [himage]),
        List.map_cons, ih, imageOf_eq himage]

theorem mem_keys_historyRow_iff {P : Platform} {e : ChangeEvent} {data : Row} {c : String} :
    c ∈ (historyRow P e data).keys ↔ c ∈ auditColumns ∨ c ∈ (rowToSf P data).keys := by
  rw [mem_keys_historyRow, auditColumns]
  simp only [List.mem_cons, List.not_mem_nil, or_false, or_assoc]

/-- A history row has the audit values in the audit columns, and elsewhere it is the image. -/
theorem cell_historyRow (P : Platform) (e : ChangeEvent) (data : Row) (c : String) :
    cell (historyRow P e data) c =
      if c ∈ auditColumns then auditValue P e c else cell (rowToSf P data) c := by
  rw [historyRow, cell_set, cell_set, cell_set, auditColumns, auditValue]
  by_cases hts : c = "_CDC_TS"
  · rw [if_pos hts, if_pos (by simp [hts]), if_pos hts]
  · by_cases hlsn : c = "_CDC_LSN"
    · rw [if_neg hts, if_pos hlsn, if_pos (by simp [hlsn]), if_neg hts, if_pos hlsn]
    · by_cases hop : c = "_CDC_OP"
      · rw [if_neg hts, if_neg hlsn, if_pos hop, if_pos (by simp [hop]), if_neg hts, if_neg hlsn]
      · rw [if_neg hts, if_neg hlsn, if_neg hop, if_neg (by simp [hts, hlsn, hop])]

/-- The entries of the image fit into a history row with the column list of `first`. -/
structure HistoryFits (P : Platform) (sfHistory : String) (first e : ChangeEvent) : Prop where
  lossless : Lossless P sfHistory (imageOf e)
  /-- An entry with an audit column has the value of the audit column. -/
  audit : ∀ p ∈ (imageOf e).entries, pgColToSf P p.1 ∈ auditColumns →
    boundValue P sfHistory (pgColToSf P p.1) (auditValue P e (pgColToSf P p.1)) =
      entryValue P sfHistory p
  /-- An entry with a column that is not listed is NULL. -/
  listed : ∀ p ∈ (imageOf e).entries, pgColToSf P p.1 ∉ auditColumns →
    pgColToSf P p.1 ∉ (rowToSf P (imageOf first)).keys → entryValue P sfHistory p = .none

instance (P : Platform) (sfHistory : String) (first e : ChangeEvent) :
    Decidable (HistoryFits P sfHistory first e) :=
  decidable_of_iff (Lossless P sfHistory (imageOf e) ∧
      (∀ p ∈ (imageOf e).entries, pgColToSf P p.1 ∈ auditColumns →
        boundValue P sfHistory (pgColToSf P p.1) (auditValue P e (pgColToSf P p.1)) =
          entryValue P sfHistory p) ∧
      ∀ p ∈ (imageOf e).entries, pgColToSf P p.1 ∉ auditColumns →
        pgColToSf P p.1 ∉ (rowToSf P (imageOf first)).keys → entryValue P sfHistory p = .none)
    ⟨fun h => ⟨h.1, h.2.1, h.2.2⟩, fun h => ⟨h.1, h.2, h.3⟩⟩

/-- **The row that the history INSERT writes for an image** has the entries of the image exactly when they
fit. -/
theorem holdsOwn_historyRow_iff {P : Platform} {sfHistory : String} {first e : ChangeEvent} :
    HoldsOwn P sfHistory (imageOf e) (insertRow (historyRow P first (imageOf first)).keys
        (storedRow P sfHistory (historyRow P e (imageOf e)))) ↔ HistoryFits P sfHistory first e := by
  have hwritten : ∀ c, insertRow (historyRow P first (imageOf first)).keys
      (storedRow P sfHistory (historyRow P e (imageOf e))) c =
      if c ∈ auditColumns then boundValue P sfHistory c (auditValue P e c)
      else if c ∈ (rowToSf P (imageOf first)).keys then imageRow P sfHistory (imageOf e) c
      else .none := by
    intro c
    rw [insertRow, storedRow, cell_historyRow, imageRow]
    by_cases haudit : c ∈ auditColumns
    · rw [if_pos (mem_keys_historyRow_iff.mpr (.inl haudit)), if_pos haudit, if_pos haudit]
    · rw [if_neg haudit, if_neg haudit]
      exact if_congr (mem_keys_historyRow_iff.trans (or_iff_right haudit)) rfl rfl
  rw [HoldsOwn]
  simp only [hwritten]
  constructor
  · intro h
    refine ⟨⟨fun p hp => (h p hp).1, fun p hp q hq hname => ?_⟩, fun p hp haudit => ?_,
      fun p hp haudit hfirst => ?_⟩
    · rw [← (h p hp).2, ← (h q hq).2, hname]
    · have hvalue := (h p hp).2
      rwa [if_pos haudit] at hvalue
    · have hvalue := (h p hp).2
      rw [if_neg haudit, if_neg hfirst] at hvalue
      exact hvalue.symm
  · intro h p hp
    refine ⟨h.lossless.binds p hp, ?_⟩
    split
    · next haudit => exact h.audit p hp haudit
    · next haudit =>
      split
      · exact (holdsOwn_imageRow_iff.mpr h.lossless p hp).2
      · next hfirst => exact (h.listed p hp haudit hfirst).symm

/-- **The history INSERT keeps the columns of its rows exactly when they fit into the columns of the
first.** -/
theorem insert_keepsColumns_iff {P : Platform} {sfHistory : String} {events : List ChangeEvent}
    {first : ChangeEvent} :
    (Stmt.insert sfHistory (historyRow P first (imageOf first)).keys
        ((historyRows P events).map fun row =>
          (historyRow P first (imageOf first)).keys.map (cell row))).KeepsColumns P events ↔
      ∀ e ∈ imaged events, HistoryFits P sfHistory first e := by
  have hinsert : ∀ (o : RowOrder) (t : Table), (Stmt.insert sfHistory
        (historyRow P first (imageOf first)).keys ((historyRows P events).map fun row =>
          (historyRow P first (imageOf first)).keys.map (cell row))).onTable P o t =
      t ++ (imaged events).map fun e => insertRow (historyRow P first (imageOf first)).keys
        (storedRow P sfHistory (historyRow P e (imageOf e))) := by
    intro o t
    rw [Stmt.onTable, sourceRows_converted_eq, historyRows_eq, List.map_map]
    rfl
  have hholds : List.Forall₂ (fun e => HoldsOwn P sfHistory (imageOf e)) (imaged events)
      ((imaged events).map fun e => insertRow (historyRow P first (imageOf first)).keys
        (storedRow P sfHistory (historyRow P e (imageOf e)))) ↔
      ∀ e ∈ imaged events, HistoryFits P sfHistory first e := by
    rw [List.forall₂_map_right_iff, List.forall₂_same]
    exact forall₂_congr fun e _ => holdsOwn_historyRow_iff
  rw [← hholds]
  constructor
  · intro hkeeps
    obtain ⟨written, happended, hwritten⟩ := hkeeps (lastFirst 0) []
    rw [hinsert, List.nil_append, List.nil_append] at happended
    rwa [happended]
  · exact fun hall o t => ⟨_, hinsert o t, hall⟩

/-- The parameters of the history INSERT can be bound when the entries of the images can. -/
theorem insert_binds {P : Platform} {sfHistory : String} {allCols : List String}
    {events : List ChangeEvent}
    (h : ∀ e ∈ imaged events, ∀ p ∈ (imageOf e).entries, EntryBinds P p) :
    (Stmt.insert sfHistory allCols
      ((historyRows P events).map fun row => allCols.map (cell row))).Binds P := by
  apply bindable_params
  rw [historyRows_eq, List.forall_mem_map]
  intro e he c _
  rw [cell_historyRow]
  split
  · next haudit =>
    have hjson : ∀ c ∈ auditColumns, c ∉ jsonbSfCols P := by
      rw [jsonbSfCols_eq]
      decide
    rw [auditValue]
    refine ⟨?_, fun hmem => absurd hmem (hjson c haudit)⟩
    split
    · rfl
    · split
      · rfl
      · rfl
  · exact bindable_cell (h e he) c

/-! ### The batch -/

/-- The columns of the rows of a batch fit into the column lists of its statements. -/
structure ColumnsFit (P : Platform) (sfCurrent sfHistory : String) (events : List ChangeEvent) :
    Prop where
  /-- The upserts agree on their columns. -/
  upserts : ∀ e ∈ events.filter (·.isUpsert), ∀ e' ∈ events.filter (·.isUpsert),
    ∀ c ∈ (rowToSf P (imageOf e)).keys, c ∈ (rowToSf P (imageOf e')).keys
  /-- They have a column besides the key, and none called `_LOADED_AT`. -/
  updatable : ∀ e ∈ events.filter (·.isUpsert), (∃ c ∈ (rowToSf P (imageOf e)).keys, c ∉ pkOf sfCurrent) ∧
    "_LOADED_AT" ∉ (rowToSf P (imageOf e)).keys
  /-- Their conversion loses nothing. -/
  lossless : ∀ e ∈ events.filter (·.isUpsert), Lossless P sfCurrent (imageOf e)
  /-- No image loses anything in a history row with the columns of the first one, which is none called
  `_LOADED_AT`. -/
  history : ∀ first ∈ (imaged events).head?, "_LOADED_AT" ∉ (rowToSf P (imageOf first)).keys ∧
    ∀ e ∈ imaged events, HistoryFits P sfHistory first e

section OneTable

variable {P : Platform} {sfCurrent sfHistory : String} {events : List ChangeEvent}

/-- The MERGE of a batch. -/
theorem mergeCurrent_keepsColumns_iff (hpk : pkOf sfCurrent ≠ [])
    (hkeyed : ∀ e ∈ events.filter (·.isUpsert), e.KeyedIn P sfCurrent) :
    (∀ stmt ∈ mergeCurrent P sfCurrent (pkOf sfCurrent) (events.filter (·.isUpsert)),
        stmt.Succeeds P ∧ stmt.KeepsColumns P events) ↔
      (∀ e ∈ events.filter (·.isUpsert), ∀ e' ∈ events.filter (·.isUpsert),
        ∀ c ∈ (rowToSf P (imageOf e)).keys, c ∈ (rowToSf P (imageOf e')).keys) ∧
      (∀ e ∈ events.filter (·.isUpsert), (∃ c ∈ (rowToSf P (imageOf e)).keys, c ∉ pkOf sfCurrent) ∧
        "_LOADED_AT" ∉ (rowToSf P (imageOf e)).keys) ∧
      ∀ e ∈ events.filter (·.isUpsert), Lossless P sfCurrent (imageOf e) := by
  have hup : ∀ e ∈ events.filter (·.isUpsert), e.isUpsert = true :=
    fun e he => (List.mem_filter.mp he).2
  cases hups : events.filter (·.isUpsert) with
  | nil => simp [mergeCurrent, mergeRows]
  | cons e₀ rest =>
    have hpkFirst := pkOf_subset_first hups hkeyed
    have hfirst : e₀ ∈ events.filter (·.isUpsert) := by simp [hups]
    rw [← hups, mergeCurrent_first hups hkeyed hup hpk, List.forall_mem_singleton,
      merge_keepsColumns_iff hups hkeyed]
    constructor
    · rintro ⟨⟨⟨-, hother, hloaded⟩, -⟩, hrows⟩
      refine ⟨fun e he e' he' c hc => ?_, fun e he => ⟨?_, fun hmem => ?_⟩,
        fun e he => (hrows e he).2⟩
      · exact ((hrows e' he').1 c).mp (((hrows e he).1 c).mpr hc)
      · obtain ⟨c, hc, hnot⟩ := hother
        exact ⟨c, ((hrows e he).1 c).mp hc, hnot⟩
      · exact hloaded (((hrows e he).1 _).mpr hmem)
    · rintro ⟨hagree, hupdatable, hlossless⟩
      obtain ⟨hother, hloaded⟩ := hupdatable e₀ hfirst
      refine ⟨⟨⟨hpkFirst, hother, hloaded⟩, bindable_params ?_⟩, fun e he =>
        ⟨fun c => ⟨hagree e₀ hfirst e he c, hagree e he e₀ hfirst c⟩, hlossless e he⟩⟩
      rw [List.forall_mem_map]
      exact fun e he c _ => bindable_cell (hlossless e he).binds c

/-- The history INSERT of a batch. -/
theorem insertHistory_keepsColumns_iff :
    (∀ stmt ∈ insertHistory P sfHistory events, stmt.Succeeds P ∧ stmt.KeepsColumns P events) ↔
      ∀ first ∈ (imaged events).head?, "_LOADED_AT" ∉ (rowToSf P (imageOf first)).keys ∧
        ∀ e ∈ imaged events, HistoryFits P sfHistory first e := by
  cases himaged : imaged events with
  | nil => simp [insertHistory, historyRows_eq, himaged]
  | cons first rest =>
    have hstmt : insertHistory P sfHistory events =
        [.insert sfHistory (historyRow P first (imageOf first)).keys ((historyRows P events).map
          fun row => (historyRow P first (imageOf first)).keys.map (cell row))] := by
      rw [insertHistory, historyRows_eq, himaged]
      rfl
    have hloaded : "_LOADED_AT" ∉ (historyRow P first (imageOf first)).keys ↔
        "_LOADED_AT" ∉ (rowToSf P (imageOf first)).keys := by
      rw [mem_keys_historyRow_iff, or_iff_right (by decide)]
    rw [hstmt, List.forall_mem_singleton, insert_keepsColumns_iff, Stmt.Succeeds, Stmt.Compiles, hloaded,
      ← himaged]
    constructor
    · rintro ⟨⟨hcompiles, -⟩, hfits⟩ first' hfirst'
      rw [himaged, List.head?_cons, Option.mem_some_iff] at hfirst'
      exact hfirst' ▸ ⟨hcompiles, hfits⟩
    · intro h
      obtain ⟨hcompiles, hfits⟩ := h first (by rw [himaged]; rfl)
      exact ⟨⟨hcompiles, insert_binds fun e he => (hfits e he).lossless.binds⟩, hfits⟩

/-- The DELETE statements of a batch, when the entries of the images can be bound. -/
theorem deleteCurrent_succeeds (h : ∀ e ∈ imaged events, ∀ p ∈ (imageOf e).entries, EntryBinds P p)
    (pk : List String) :
    ∀ stmt ∈ deleteCurrent P sfCurrent pk (events.filter (·.op = .d)),
      stmt.Succeeds P ∧ stmt.KeepsColumns P events := by
  intro stmt hstmt
  obtain ⟨e, he, rfl⟩ := List.mem_map.mp hstmt
  obtain ⟨hmem, hop⟩ := List.mem_filter.mp he
  have himage : e.image = e.before := by
    rw [ChangeEvent.image, isUpsert_eq_false_iff.mpr (of_decide_eq_true hop), if_neg Bool.false_ne_true]
  have hbinds : ∀ p ∈ (e.before.getD ∅).entries, EntryBinds P p := by
    cases hbefore : e.before with
    | none => simp
    | some row =>
      have himaged : e ∈ imaged events := List.mem_filter.mpr ⟨hmem, by rw [himage, hbefore]; rfl⟩
      have hrow := h e himaged
      rwa [imageOf_eq (himage.trans hbefore)] at hrow
  refine ⟨⟨trivial, ?_⟩, trivial⟩
  show ∀ p ∈ pk.zip (pk.map (cell (rowToSf P (e.before.getD ∅)))), Bindable P p.1 p.2
  rw [← List.map_prod_left_eq_zip, List.forall_mem_map]
  exact fun c _ => bindable_cell hbinds c

end OneTable

/-- **Column changes inside a batch lose nothing exactly when they are none.**  For every batch of one
table whose upserts have non-null keys: every statement of `_write_batch` is executed and keeps the entries
of its rows, if and only if the upserts agree on their columns, one of which is not a key, no image has a
value outside the columns of the first, no column is called `_LOADED_AT`, and no entry takes the column of
another one or of an audit column with another value. -/
theorem batch_keepsColumns_iff (P : Platform) {pgTable sfCurrent sfHistory : String}
    (hmap : tableMap.get? pgTable = some (sfCurrent, sfHistory)) {events : List ChangeEvent}
    (htable : ∀ e ∈ events, normalizePgTable e.table = pgTable)
    (hkeyed : ∀ e ∈ events, e.isUpsert = true → e.KeyedIn P sfCurrent) :
    (∀ stmt ∈ (writeBatch P events).1, stmt.Succeeds P ∧ stmt.KeepsColumns P events) ↔
      ColumnsFit P sfCurrent sfHistory events := by
  have hups : ∀ e ∈ events.filter (·.isUpsert), e.KeyedIn P sfCurrent := by
    intro e he
    rw [List.mem_filter] at he
    exact hkeyed e he.1 he.2
  rw [writeBatch_oneTable hmap htable, writeCurrent_eq, List.forall_mem_append, List.forall_mem_append,
    mergeCurrent_keepsColumns_iff (pkOf_of_mapped hmap).1 hups, insertHistory_keepsColumns_iff]
  constructor
  · rintro ⟨⟨⟨hagree, hupdatable, hlossless⟩, -⟩, hhistory⟩
    exact ⟨hagree, hupdatable, hlossless, hhistory⟩
  · rintro ⟨hagree, hupdatable, hlossless, hhistory⟩
    refine ⟨⟨⟨hagree, hupdatable, hlossless⟩, deleteCurrent_succeeds (fun e he => ?_) _⟩, hhistory⟩
    obtain ⟨first, rest, himaged⟩ := List.exists_cons_of_ne_nil (List.ne_nil_of_mem he)
    exact ((hhistory first (by rw [himaged]; rfl)).2 e he).lossless.binds

/-- A device as pgoutput delivers it after a column has been added. -/
def notedRow (id label note : String) : Row :=
  ⟨[("id", .str id), ("label", .str label), ("note", .str note)], by simp⟩

/-- Two devices with the same columns. -/
def notedBatch : List ChangeEvent :=
  [deviceEvent .c (notedRow "1" "tv" "new") 10 12, deviceEvent .u (notedRow "2" "radio" "old") 11 12]

theorem batch_keepsColumns_devices :
    ColumnsFit .ascii "CUSTOMER_DEVICES" "CUSTOMER_DEVICES_HISTORY" notedBatch ∧
      ∀ stmt ∈ (writeBatch .ascii notedBatch).1,
        stmt.Succeeds .ascii ∧ stmt.KeepsColumns .ascii notedBatch := by
  have hmap : tableMap.get? "customer_devices" =
      some ("CUSTOMER_DEVICES", "CUSTOMER_DEVICES_HISTORY") := by decide
  have hfit : ColumnsFit .ascii "CUSTOMER_DEVICES" "CUSTOMER_DEVICES_HISTORY" notedBatch :=
    ⟨by decide +kernel, by decide +kernel, by decide +kernel, by decide +kernel⟩
  refine ⟨hfit, (batch_keepsColumns_iff .ascii hmap (by decide) ?_).mpr hfit⟩
  intro e he _
  rcases List.mem_cons.mp he with rfl | he
  · exact ⟨notedRow "1" "tv" "new", rfl, by decide +kernel⟩
  · rw [List.mem_singleton.mp he]
    exact ⟨notedRow "2" "radio" "old", rfl, by decide +kernel⟩

/-- A device inserted before, and one updated after the column `note` has been added. -/
def alteredBatch : List ChangeEvent :=
  [deviceEvent .c (deviceRow "1" "tv") 10 12, deviceEvent .u (notedRow "2" "radio" "old") 20 22]

/-- **The note of device 2 is lost**, in the current-state table and in the history. -/
theorem batch_loses_note :
    (completeBatch .ascii lastFirstTie alteredBatch (fun _ => [])).map (fun after =>
        ((after "CUSTOMER_DEVICES").map (keyOf ["ID", "NOTE"]),
          (after "CUSTOMER_DEVICES_HISTORY").map (keyOf ["ID", "NOTE"]))) =
      some ([[.str "1", .none], [.str "2", .none]], [[.str "1", .none], [.str "2", .none]]) ∧
    ¬ ∀ stmt ∈ (writeBatch .ascii alteredBatch).1,
      stmt.Succeeds .ascii ∧ stmt.KeepsColumns .ascii alteredBatch := by
  refine ⟨by decide +kernel, fun h => ?_⟩
  have hmap : tableMap.get? "customer_devices" =
      some ("CUSTOMER_DEVICES", "CUSTOMER_DEVICES_HISTORY") := by decide
  rw [writeBatch_oneTable hmap (by decide), List.forall_mem_append] at h
  exact absurd (insertHistory_keepsColumns_iff.mp h.2) (by decide +kernel)

end PgSnowflakeCdc
