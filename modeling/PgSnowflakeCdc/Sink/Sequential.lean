import PgSnowflakeCdc.Sink.WriteBatch

/-!
# Changes applied one at a time, and changes applied as a batch

* `applyChange` — what one change means for a current-state table: an insert or update puts the
  after-image under its primary key, a delete removes the key of the before-image;
* `rowsAt_applyChanges` — the changes of a table at one key, as row operations;
* `runOps_writeCurrent` — the batch at one key: nothing when the batch deletes the key, otherwise
  its last upsert;
* `runOps_changes_of_noDelete` — the changes at one key: the last one decides;
* `runOps_writeCurrent_eq_changes` — both agree when deletes come last.
-/

namespace PgSnowflakeCdc

open OrderedDict RowNumbering KeyedRows

/-! ### Images -/

/-- The columns of a row and the values they take in a table. -/
def assignment (P : Platform) (sfTable : String) (row : Row) : String → Option PyVal := fun c =>
  ((rowToSf P row).get? c).map (boundValue P sfTable c)

/-- The row as it stands in a table that holds nothing else of it. -/
def imageRow (P : Platform) (sfTable : String) (row : Row) : SfRow := fun c =>
  boundValue P sfTable c (cell (rowToSf P row) c)

/-- The primary key of a row. -/
def rowKey (P : Platform) (sfTable : String) (row : Row) : List PyVal :=
  keyOf (pkOf sfTable) (imageRow P sfTable row)

theorem boundValue_null (P : Platform) (sfTable c : String) :
    boundValue P sfTable c .none = .none := by
  rw [boundValue, P.parsedJson_null, (P.sqlValue_eq_none sfTable c .none).mpr rfl, ite_self]

/-- The assignment holds the image on the columns of the row. -/
theorem assignment_eq (P : Platform) (sfTable : String) (row : Row) (c : String) :
    assignment P sfTable row c =
      if c ∈ (rowToSf P row).keys then some (imageRow P sfTable row c) else none := by
  rw [assignment, imageRow, cell]
  cases h : (rowToSf P row).get? c with
  | none => rw [if_neg (Dict.get?_eq_none_iff.mp h), Option.map_none]
  | some v => rw [if_pos (Dict.mem_keys_of_get? h), Option.map_some, Option.getD_some]

/-- Rows with the same columns assign the same columns. -/
theorem assignment_eq_none_of_keys {P : Platform} {sfTable : String} {row row' : Row}
    (hkeys : row.keys = row'.keys) {c : String} (h : assignment P sfTable row c = none) :
    assignment P sfTable row' c = none := by
  have hlisted : c ∈ (rowToSf P row').keys ↔ c ∈ (rowToSf P row).keys := by
    rw [mem_keys_rowToSf, mem_keys_rowToSf, hkeys]
  rw [assignment_eq] at h ⊢
  rw [if_neg]
  intro hmem
  rw [if_pos (hlisted.mp hmem)] at h
  cases h

/-- An image has nothing outside its columns. -/
theorem imageRow_of_notMem {P : Platform} {sfTable : String} {row : Row} {c : String}
    (h : c ∉ (rowToSf P row).keys) : imageRow P sfTable row c = .none := by
  rw [imageRow, cell, Dict.get?_eq_none_iff.mpr h, Option.getD_none, boundValue_null]

/-- A row that takes all columns of another one becomes its image. -/
theorem overlay_assignment {P : Platform} {sfTable : String} {row : Row} {r : SfRow}
    (h : ∀ c, c ∉ (rowToSf P row).keys → r c = .none) :
    overlay (assignment P sfTable row) r = imageRow P sfTable row := by
  funext c
  rw [overlay, assignment_eq]
  by_cases hc : c ∈ (rowToSf P row).keys
  · rw [if_pos hc, Option.getD_some]
  · rw [if_neg hc, Option.getD_none, h c hc, imageRow_of_notMem hc]

/-- A key that is not null survives the cast. -/
theorem none_notMem_rowKey {P : Platform} {sfTable : String} {row : Row}
    (h : KeyNonNull P sfTable row) : PyVal.none ∉ rowKey P sfTable row := by
  intro hnull
  obtain ⟨c, hc, hval⟩ := List.mem_map.mp hnull
  rw [imageRow, boundValue_of_pk P hc, P.sqlValue_eq_none] at hval
  exact h c hc hval

/-- A row that takes the columns of an image takes its key. -/
theorem keyOf_overlay_assignment {P : Platform} {sfTable : String} {row : Row}
    (h : KeyNonNull P sfTable row) (r : SfRow) :
    keyOf (pkOf sfTable) (overlay (assignment P sfTable row) r) = rowKey P sfTable row := by
  rw [rowKey, keyOf, keyOf]
  apply List.map_congr_left
  intro c hc
  rw [overlay, assignment_eq, if_pos (mem_keys_of_cell (h c hc)), Option.getD_some]

/-! ### One change -/

/-- One change of a current-state table. -/
def applyChange (P : Platform) (sfTable : String) (e : ChangeEvent) (t : Table) : Table :=
  match e.image with
  | none => t
  | some row =>
    if e.isUpsert then
      upsertAt .none (keyOf (pkOf sfTable)) (rowKey P sfTable row) (assignment P sfTable row) t
    else removeAt (keyOf (pkOf sfTable)) (rowKey P sfTable row) t

/-- The changes of a list, one at a time. -/
def applyChanges (P : Platform) (sfTable : String) (events : List ChangeEvent) (t : Table) : Table :=
  Replay.run (applyChange P sfTable) events t

/-- The key of an event; `[]`, which is no key, when it has no image. -/
def changeKey (P : Platform) (sfTable : String) (e : ChangeEvent) : List PyVal :=
  match e.image with
  | none => []
  | some row => rowKey P sfTable row

/-- The row operation of an event at its own key. -/
def ownOp (P : Platform) (sfTable : String) (e : ChangeEvent) : RowOp String PyVal :=
  match e.image with
  | none => .keep
  | some row => if e.isUpsert then .assign (assignment P sfTable row) else .remove

/-- What a change does at key `k`. -/
def changeOp (P : Platform) (sfTable : String) (k : List PyVal) (e : ChangeEvent) :
    RowOp String PyVal :=
  if changeKey P sfTable e = k then ownOp P sfTable e else .keep

section Image

variable {P : Platform} {sfTable : String} {e : ChangeEvent} {row : Row} (h : e.image = some row)

include h

theorem changeKey_of_image : changeKey P sfTable e = rowKey P sfTable row := by
  rw [changeKey, h]

theorem ownOp_of_upsert (hup : e.isUpsert = true) :
    ownOp P sfTable e = .assign (assignment P sfTable row) := by
  rw [ownOp, h]
  exact if_pos hup

theorem ownOp_of_delete (hup : e.isUpsert = false) : ownOp P sfTable e = .remove := by
  rw [ownOp, h]
  exact if_neg (by simp [hup])

end Image

/-- An event with a row image whose key is non-null. -/
def ChangeEvent.KeyedIn (P : Platform) (sfTable : String) (e : ChangeEvent) : Prop :=
  ∃ row, e.image = some row ∧ KeyNonNull P sfTable row

/-- An event of one table: a row image with the columns `columns` and a non-null key. -/
structure ChangeEvent.OfTable (P : Platform) (pgTable sfTable : String) (columns : List String)
    (e : ChangeEvent) : Prop where
  table : normalizePgTable e.table = pgTable
  image : ∃ row, e.image = some row ∧ row.keys = columns ∧ KeyNonNull P sfTable row

theorem ChangeEvent.OfTable.keyedIn {P : Platform} {pgTable sfTable : String} {columns : List String}
    {e : ChangeEvent} (h : e.OfTable P pgTable sfTable columns) : e.KeyedIn P sfTable := by
  obtain ⟨row, himage, -, hkey⟩ := h.image
  exact ⟨row, himage, hkey⟩

theorem ChangeEvent.OfTable.isMapped {P : Platform} {pgTable sfTable sfHistory : String}
    {columns : List String} {e : ChangeEvent}
    (hmap : tableMap.get? pgTable = some (sfTable, sfHistory))
    (h : e.OfTable P pgTable sfTable columns) : IsMapped e.table := by
  rw [IsMapped, h.table]
  exact Dict.mem_keys_of_get? hmap

theorem ChangeEvent.OfTable.keyed {P : Platform} {pgTable sfTable sfHistory : String}
    {columns : List String} {e : ChangeEvent}
    (hmap : tableMap.get? pgTable = some (sfTable, sfHistory))
    (h : e.OfTable P pgTable sfTable columns) : e.Keyed P := by
  intro target htarget row hrow hup
  rw [h.table, hmap, Option.mem_some_iff] at htarget
  obtain ⟨row', himage, -, hkey⟩ := h.image
  rw [ChangeEvent.image, if_pos hup, hrow, Option.some.injEq] at himage
  rw [← htarget, himage]
  exact hkey

theorem rowsAt_applyChange {P : Platform} {pgTable sfTable : String} {columns : List String}
    {e : ChangeEvent} (h : e.OfTable P pgTable sfTable columns) (t : Table) (k : List PyVal) :
    rowsAt (keyOf (pkOf sfTable)) k (applyChange P sfTable e t) =
      (changeOp P sfTable k e).act .none (rowsAt (keyOf (pkOf sfTable)) k t) := by
  obtain ⟨row, himage, -, hkey⟩ := h.image
  rw [applyChange, changeOp, changeKey_of_image himage, himage]
  cases hup : e.isUpsert with
  | true =>
    rw [ownOp_of_upsert himage hup]
    exact rowsAt_upsertAt .none _ (keyOf_overlay_assignment hkey) t k
  | false =>
    rw [ownOp_of_delete himage hup]
    exact rowsAt_removeAt .none _ (rowKey P sfTable row) t k

/-- **Changes at a key.** -/
theorem rowsAt_applyChanges {P : Platform} {pgTable sfTable : String} {columns : List String}
    {events : List ChangeEvent} (h : ∀ e ∈ events, e.OfTable P pgTable sfTable columns) (t : Table)
    (k : List PyVal) :
    rowsAt (keyOf (pkOf sfTable)) k (applyChanges P sfTable events t) =
      runOps .none (events.map (changeOp P sfTable k)) (rowsAt (keyOf (pkOf sfTable)) k t) :=
  Replay.run_hom (rowsAt (keyOf (pkOf sfTable)) k) (changeOp P sfTable k)
    (fun e he t => rowsAt_applyChange (h e he) t k) t

/-- Only the changes of a key matter at it. -/
theorem runOps_changeOp (P : Platform) (sfTable : String) (k : List PyVal) (events : List ChangeEvent)
    (rows : List SfRow) :
    runOps .none (events.map (changeOp P sfTable k)) rows =
      runOps .none ((events.filter fun e => changeKey P sfTable e = k).map (ownOp P sfTable)) rows := by
  induction events generalizing rows with
  | nil => rfl
  | cons e events ih =>
    by_cases h : changeKey P sfTable e = k
    · rw [List.filter_cons_of_pos (by simpa using h), List.map_cons, List.map_cons, changeOp,
        if_pos h]
      exact ih _
    · rw [List.filter_cons_of_neg (by simpa using h), List.map_cons, changeOp, if_neg h]
      exact ih _

/-! ### A batch of one table at a key -/

section Batch

variable {P : Platform} {pgTable sfTable : String} {columns : List String}

theorem image_of_upsert {e : ChangeEvent} (h : e.isUpsert = true) : e.image = e.after := by
  rw [ChangeEvent.image, if_pos h]

theorem image_of_delete {e : ChangeEvent} (h : e.op = .d) : e.image = e.before := by
  rw [ChangeEvent.image, if_neg (by simp [isUpsert_eq_false_iff.mpr h])]

/-- The row of an event that has an image. -/
def imageOf (e : ChangeEvent) : Row := e.image.getD ∅

theorem imageOf_eq {e : ChangeEvent} {row : Row} (h : e.image = some row) : imageOf e = row := by
  rw [imageOf, h, Option.getD_some]

/-- Every upsert of the table contributes its image to the MERGE. -/
theorem mergeRows_eq (hpk : pkOf sfTable ≠ []) {ups : List ChangeEvent}
    (h : ∀ e ∈ ups, e.KeyedIn P sfTable) (hup : ∀ e ∈ ups, e.isUpsert = true) :
    mergeRows P ups = ups.map fun e => rowToSf P (imageOf e) := by
  rw [mergeRows, ← List.filterMap_eq_map]
  apply List.filterMap_congr
  intro e he
  obtain ⟨row, himage, hkey⟩ := h e he
  have hrow : row.entries ≠ [] := by
    intro hnil
    obtain ⟨c, hc⟩ := List.exists_mem_of_ne_nil _ hpk
    obtain ⟨pgKey, hmem, -⟩ := mem_keys_rowToSf.mp (mem_keys_of_cell (hkey c hc))
    rw [Dict.keys, hnil] at hmem
    exact absurd hmem List.not_mem_nil
  rw [← image_of_upsert (hup e he), Function.comp_apply, imageOf_eq himage, himage]
  simp [hrow]

/-- The source of a MERGE of converted rows: their images, in order. -/
theorem sourceRows_converted {allCols : List String} {rows : List Row}
    (h : ∀ row ∈ rows, ∀ c, c ∈ (rowToSf P row).keys ↔ c ∈ allCols) :
    sourceRows P sfTable allCols ((rows.map (rowToSf P)).map fun row => allCols.map (cell row)) =
      rows.map (imageRow P sfTable) := by
  rw [sourceRows, List.map_map, List.map_map]
  apply List.map_congr_left
  intro row hrow
  funext c
  rw [Function.comp_apply, Function.comp_apply, sourceRow_map, imageRow]
  by_cases hc : c ∈ allCols
  · rw [if_pos hc]
  · have hcell : cell (rowToSf P row) c = .none := by
      by_contra hne
      exact hc ((h row hrow c).mp (mem_keys_of_cell hne))
    rw [if_neg hc, hcell, boundValue_null]

/-- The source of the MERGE: the images, in order. -/
theorem sourceRows_images {allCols : List String} {ups : List ChangeEvent}
    (h : ∀ e ∈ ups, ∀ c, c ∈ (rowToSf P (imageOf e)).keys ↔ c ∈ allCols) :
    sourceRows P sfTable allCols ((ups.map fun e => rowToSf P (imageOf e)).map fun row =>
        allCols.map (cell row)) = ups.map fun e => imageRow P sfTable (imageOf e) := by
  have hrows : ∀ row ∈ ups.map imageOf, ∀ c, c ∈ (rowToSf P row).keys ↔ c ∈ allCols := by
    intro row hrow
    obtain ⟨e, he, rfl⟩ := List.mem_map.mp hrow
    exact h e he
  have hsource : sourceRows P sfTable allCols
      (((ups.map imageOf).map (rowToSf P)).map fun row => allCols.map (cell row)) = _ :=
    sourceRows_converted hrows
  rw [List.map_map, List.map_map] at hsource
  rw [List.map_map]
  exact hsource.trans List.map_map

/-- The images of one table list the same converted columns. -/
theorem mem_keys_image {e e' : ChangeEvent} (h : e.OfTable P pgTable sfTable columns)
    (h' : e'.OfTable P pgTable sfTable columns) (c : String) :
    c ∈ (rowToSf P (imageOf e)).keys ↔ c ∈ (rowToSf P (imageOf e')).keys := by
  obtain ⟨row, himage, hcols, -⟩ := h.image
  obtain ⟨row', himage', hcols', -⟩ := h'.image
  rw [mem_keys_rowToSf, mem_keys_rowToSf, imageOf_eq himage, imageOf_eq himage', hcols, hcols']

theorem changeKey_eq {e : ChangeEvent} (h : e.KeyedIn P sfTable) :
    changeKey P sfTable e = keyOf (pkOf sfTable) (imageRow P sfTable (imageOf e)) := by
  obtain ⟨row, himage, -⟩ := h
  rw [changeKey_of_image himage, imageOf_eq himage, rowKey]

/-- The MERGE of some upserts: its source is their images. -/
theorem mergeCurrent_images (hpk : pkOf sfTable ≠ []) {ups : List ChangeEvent} (hne : ups ≠ [])
    (h : ∀ e ∈ ups, e.OfTable P pgTable sfTable columns) (hup : ∀ e ∈ ups, e.isUpsert = true) :
    ∃ allCols rows,
      mergeCurrent P sfTable (pkOf sfTable) ups = [.merge sfTable (pkOf sfTable) allCols rows] ∧
      sourceRows P sfTable allCols rows = (ups.map fun e => imageRow P sfTable (imageOf e)) ∧
      ∀ e ∈ ups, ∀ c, c ∈ (rowToSf P (imageOf e)).keys ↔ c ∈ allCols := by
  cases ups with
  | nil => exact absurd rfl hne
  | cons e₀ ups =>
    have hcols : ∀ e ∈ e₀ :: ups, ∀ c,
        c ∈ (rowToSf P (imageOf e)).keys ↔ c ∈ (rowToSf P (imageOf e₀)).keys :=
      fun e he => mem_keys_image (h e he) (h e₀ List.mem_cons_self)
    refine ⟨_, _, ?_, sourceRows_images hcols, hcols⟩
    rw [mergeCurrent, mergeRows_eq hpk (fun e he => (h e he).keyedIn) hup]
    rfl

/-- **The MERGE at a key** is the last upsert of the key. -/
theorem runOps_mergeCurrent (hpk : pkOf sfTable ≠ []) {ups : List ChangeEvent}
    (h : ∀ e ∈ ups, e.OfTable P pgTable sfTable columns) (hup : ∀ e ∈ ups, e.isUpsert = true)
    {tie : Stmt → RowOrder}
    (hlast : ∀ stmt ∈ mergeCurrent P sfTable (pkOf sfTable) ups, stmt.KeepsLast P (tie stmt))
    (k : List PyVal) (rows : List SfRow) :
    runOps .none ((mergeCurrent P sfTable (pkOf sfTable) ups).map (Stmt.opAt P tie sfTable k)) rows =
      (((ups.filter fun e => changeKey P sfTable e = k).getLast?.map (ownOp P sfTable)).getD
        .keep).act .none rows := by
  by_cases hne : ups = []
  · subst hne
    rfl
  · obtain ⟨allCols, params, hmerge, hsource, hcols⟩ := mergeCurrent_images hpk hne h hup
    rw [hmerge] at hlast ⊢
    have hkeeps := hlast _ (List.mem_singleton_self _) k
    rw [hsource] at hkeeps
    have hlastKey : ((ups.map fun e => imageRow P sfTable (imageOf e)).filter fun s =>
        keyOf (pkOf sfTable) s = k).getLast? =
          ((ups.filter fun e => changeKey P sfTable e = k).getLast?).map fun e =>
            imageRow P sfTable (imageOf e) := by
      rw [List.filter_map, List.getLast?_map]
      congr 2
      apply List.filter_congr
      intro e he
      rw [Function.comp_apply, changeKey_eq (h e he).keyedIn]
    rw [List.map_singleton, Stmt.opAt, if_pos rfl, mergeOp, hsource, hkeeps, hlastKey]
    show RowOp.act _ _ rows = _
    cases hend : (ups.filter fun e => changeKey P sfTable e = k).getLast? with
    | none => rfl
    | some e =>
      have he : e ∈ ups := List.mem_of_mem_filter (List.mem_of_getLast? hend)
      obtain ⟨row, himage, -, -⟩ := (h e he).image
      have hassign : (fun c => if c ∈ allCols then some (imageRow P sfTable row c) else none) =
          assignment P sfTable row := by
        funext c
        rw [assignment_eq, ← imageOf_eq himage, if_congr (hcols e he c) rfl rfl]
      rw [Option.map_some, Option.map_some, Option.getD_some, ownOp_of_upsert himage (hup e he),
        imageOf_eq himage, ← hassign]

theorem boundKey_map (P : Platform) (sfTable : String) (pk : List String) (f : String → PyVal) :
    boundKey P sfTable pk (pk.map f) = pk.map fun c => P.sqlValue sfTable c (f c) := by
  rw [boundKey]
  induction pk with
  | nil => rfl
  | cons c pk ih => rw [List.map_cons, List.zip_cons_cons, List.map_cons, ih, List.map_cons]

/-- A DELETE statement removes exactly the key of its event. -/
theorem opAt_deleteCurrent {tie : Stmt → RowOrder} {dels : List ChangeEvent}
    (h : ∀ e ∈ dels, e.KeyedIn P sfTable) (hdel : ∀ e ∈ dels, e.op = .d) (k : List PyVal) :
    (deleteCurrent P sfTable (pkOf sfTable) dels).map (Stmt.opAt P tie sfTable k) =
      dels.map (changeOp P sfTable k) := by
  rw [deleteCurrent, List.map_map]
  apply List.map_congr_left
  intro e he
  obtain ⟨row, himage, hkey⟩ := h e he
  have hbefore : e.before = some row := by rw [← image_of_delete (hdel e he), himage]
  have hbound : boundKey P sfTable (pkOf sfTable) ((pkOf sfTable).map (cell (rowToSf P row))) =
      rowKey P sfTable row := by
    rw [boundKey_map, rowKey, keyOf]
    apply List.map_congr_left
    intro c hc
    rw [imageRow, boundValue_of_pk P hc]
  rw [Function.comp_apply, Stmt.opAt, if_pos rfl, hbefore, Option.getD_some, hbound, changeOp,
    changeKey_of_image himage, ownOp_of_delete himage (isUpsert_eq_false_iff.mpr (hdel e he)),
    deleteOp]
  have hiff : SqlEq k (rowKey P sfTable row) ↔ rowKey P sfTable row = k :=
    (sqlEq_iff (none_notMem_rowKey hkey)).trans eq_comm
  rw [if_congr hiff rfl rfl]

/-- Deletes alone, at a key. -/
theorem runOps_deletes {dels : List ChangeEvent}
    (h : ∀ e ∈ dels, e.KeyedIn P sfTable) (hdel : ∀ e ∈ dels, e.op = .d) (k : List PyVal)
    (rows : List SfRow) :
    runOps .none (dels.map (changeOp P sfTable k)) rows =
      if ∃ e ∈ dels, changeKey P sfTable e = k then [] else rows := by
  rw [runOps_changeOp]
  rcases List.eq_nil_or_concat (dels.filter fun e => changeKey P sfTable e = k) with
    hnil | ⟨init, e, hsplit⟩
  · have hnone : ¬ ∃ e ∈ dels, changeKey P sfTable e = k := by
      rintro ⟨e, he, hk⟩
      exact (List.filter_eq_nil_iff.mp hnil) e he (by simpa using hk)
    rw [hnil, if_neg hnone]
    rfl
  · have he : e ∈ dels.filter fun e => changeKey P sfTable e = k := by
      rw [hsplit]
      simp
    rw [List.mem_filter, decide_eq_true_eq] at he
    obtain ⟨row, himage, -⟩ := h e he.1
    rw [if_pos ⟨e, he⟩, hsplit, List.concat_eq_append, List.map_append, List.map_singleton,
      ownOp_of_delete himage (isUpsert_eq_false_iff.mpr (hdel e he.1)), runOps_snoc_remove]

/-- **A batch of one table at a key**: nothing when the batch deletes the key, otherwise its last
upsert, if there is one. -/
theorem runOps_writeCurrent (hpk : pkOf sfTable ≠ []) {events : List ChangeEvent}
    (h : ∀ e ∈ events, e.OfTable P pgTable sfTable columns) {tie : Stmt → RowOrder}
    (hlast : ∀ stmt ∈ writeCurrent P sfTable events, stmt.KeepsLast P (tie stmt))
    (k : List PyVal) (rows : List SfRow) :
    runOps .none ((writeCurrent P sfTable events).map (Stmt.opAt P tie sfTable k)) rows =
      if ∃ e ∈ events, e.op = .d ∧ changeKey P sfTable e = k then []
      else (((events.filter fun e => changeKey P sfTable e = k).getLast?.map
        (ownOp P sfTable)).getD .keep).act .none rows := by
  rw [writeCurrent_eq] at hlast ⊢
  have hups : ∀ e ∈ events.filter (·.isUpsert), e.OfTable P pgTable sfTable columns :=
    fun e he => h e (List.mem_of_mem_filter he)
  have hup : ∀ e ∈ events.filter (·.isUpsert), e.isUpsert = true :=
    fun e he => (List.mem_filter.mp he).2
  have hdels : ∀ e ∈ events.filter (·.op = .d), e.KeyedIn P sfTable :=
    fun e he => (h e (List.mem_of_mem_filter he)).keyedIn
  have hdel : ∀ e ∈ events.filter (·.op = .d), e.op = .d :=
    fun e he => of_decide_eq_true (List.mem_filter.mp he).2
  have hmerge := runOps_mergeCurrent hpk hups hup
    (fun stmt hstmt => hlast stmt (List.mem_append_left _ hstmt)) k rows
  have hiff : (∃ e ∈ events.filter (·.op = .d), changeKey P sfTable e = k) ↔
      ∃ e ∈ events, e.op = .d ∧ changeKey P sfTable e = k := by
    simp only [List.mem_filter, decide_eq_true_eq, and_assoc]
  rw [List.map_append, runOps_append, opAt_deleteCurrent hdels hdel,
    runOps_deletes hdels hdel, if_congr hiff rfl rfl]
  split
  · rfl
  · next hnone =>
    -- without a delete of `k`, the upserts of `k` are all of its events
    have hsame : (events.filter (·.isUpsert)).filter (fun e => changeKey P sfTable e = k) =
        events.filter fun e => changeKey P sfTable e = k := by
      rw [List.filter_filter]
      apply List.filter_congr
      intro e he
      by_cases hk : changeKey P sfTable e = k
      · have hop : e.isUpsert = true := isUpsert_iff.mpr fun hd => hnone ⟨e, he, hd, hk⟩
        rw [hop, Bool.and_true]
      · rw [decide_eq_false hk, Bool.false_and]
    rw [hmerge, hsame]

/-! ### The changes of a table at a key -/

section LastChange

variable {events : List ChangeEvent} (h : ∀ e ∈ events, e.OfTable P pgTable sfTable columns)
  {k : List PyVal} (rows : List SfRow)

include h

/-- When the last change of a key deletes it, nothing is left. -/
theorem runOps_changes_of_last_delete {e : ChangeEvent}
    (hend : (events.filter fun e => changeKey P sfTable e = k).getLast? = some e) (hd : e.op = .d) :
    runOps .none (events.map (changeOp P sfTable k)) rows = [] := by
  obtain ⟨row, himage, -, -⟩ := (h e (List.mem_of_mem_filter (List.mem_of_getLast? hend))).image
  obtain ⟨init, hsplit⟩ := List.getLast?_eq_some_iff.mp hend
  rw [runOps_changeOp, hsplit, List.map_append, List.map_singleton,
    ownOp_of_delete himage (isUpsert_eq_false_iff.mpr hd), runOps_snoc_remove]

/-- When the last change of a key is an upsert, a row is left. -/
theorem runOps_changes_of_last_upsert {e : ChangeEvent}
    (hend : (events.filter fun e => changeKey P sfTable e = k).getLast? = some e) (hup : e.op ≠ .d) :
    runOps .none (events.map (changeOp P sfTable k)) rows ≠ [] := by
  obtain ⟨row, himage, -, -⟩ := (h e (List.mem_of_mem_filter (List.mem_of_getLast? hend))).image
  obtain ⟨init, hsplit⟩ := List.getLast?_eq_some_iff.mp hend
  rw [runOps_changeOp, hsplit, List.map_append, List.map_singleton,
    ownOp_of_upsert himage (isUpsert_iff.mpr hup)]
  exact runOps_snoc_assign_ne_nil _ _ _ _

/-- **Without a delete of the key, its last change decides**: the earlier ones are upserts of the
same columns. -/
theorem runOps_changes_of_noDelete
    (hnone : ∀ e ∈ events, changeKey P sfTable e = k → e.op ≠ .d) :
    runOps .none (events.map (changeOp P sfTable k)) rows =
      (((events.filter fun e => changeKey P sfTable e = k).getLast?.map
        (ownOp P sfTable)).getD .keep).act .none rows := by
  have hown : ∀ e ∈ events.filter (fun e => changeKey P sfTable e = k), ∃ row, row.keys = columns ∧
      ownOp P sfTable e = .assign (assignment P sfTable row) := by
    intro e he
    rw [List.mem_filter, decide_eq_true_eq] at he
    obtain ⟨row, himage, hcols, -⟩ := (h e he.1).image
    exact ⟨row, hcols, ownOp_of_upsert himage (isUpsert_iff.mpr (hnone e he.1 he.2))⟩
  rw [runOps_changeOp]
  rcases List.eq_nil_or_concat (events.filter fun e => changeKey P sfTable e = k) with
    hnil | ⟨init, e, hsplit⟩
  · rw [hnil]
    rfl
  · rw [hsplit, List.concat_eq_append] at hown ⊢
    obtain ⟨row, hcols, hop⟩ := hown e (by simp)
    rw [List.getLast?_concat, List.map_append, List.map_singleton, Option.map_some,
      Option.getD_some, hop]
    apply runOps_snoc_assign
    · intro hremove
      obtain ⟨e', he', hop'⟩ := List.mem_map.mp hremove
      obtain ⟨row', -, hassign⟩ := hown e' (List.mem_append_left _ he')
      rw [hassign] at hop'
      cases hop'
    · intro a ha c hc
      obtain ⟨e', he', hop'⟩ := List.mem_map.mp ha
      obtain ⟨row', hcols', hassign⟩ := hown e' (List.mem_append_left _ he')
      rw [hassign, RowOp.assign.injEq] at hop'
      rw [← hop']
      exact assignment_eq_none_of_keys (hcols.trans hcols'.symm) hc

end LastChange

/-- A key that the batch deletes is deleted by the last event of the key. -/
def DeletesLast (P : Platform) (sfTable : String) (events : List ChangeEvent) : Prop :=
  ∀ d ∈ events, d.op = .d →
    ∀ e ∈ (events.filter fun e => changeKey P sfTable e = changeKey P sfTable d).getLast?, e.op = .d

instance (P : Platform) (sfTable : String) (events : List ChangeEvent) :
    Decidable (DeletesLast P sfTable events) :=
  inferInstanceAs (Decidable (∀ _ ∈ _, _))

/-- **When deletes come last, a batch of one table and its changes agree at every key.** -/
theorem runOps_writeCurrent_eq_changes (hpk : pkOf sfTable ≠ []) {events : List ChangeEvent}
    (h : ∀ e ∈ events, e.OfTable P pgTable sfTable columns) {tie : Stmt → RowOrder}
    (hlast : ∀ stmt ∈ writeCurrent P sfTable events, stmt.KeepsLast P (tie stmt))
    (hsafe : DeletesLast P sfTable events) (k : List PyVal) (rows : List SfRow) :
    runOps .none ((writeCurrent P sfTable events).map (Stmt.opAt P tie sfTable k)) rows =
      runOps .none (events.map (changeOp P sfTable k)) rows := by
  rw [runOps_writeCurrent hpk h hlast]
  by_cases hex : ∃ e ∈ events, e.op = .d ∧ changeKey P sfTable e = k
  · rw [if_pos hex]
    obtain ⟨d, hd, hop, rfl⟩ := hex
    have hne : events.filter (fun e => changeKey P sfTable e = changeKey P sfTable d) ≠ [] :=
      List.ne_nil_of_mem (a := d) (by simpa using hd)
    cases he : (events.filter fun e => changeKey P sfTable e = changeKey P sfTable d).getLast? with
    | none => exact absurd (List.getLast?_eq_none_iff.mp he) hne
    | some e => exact (runOps_changes_of_last_delete h rows he (hsafe d hd hop e he)).symm
  · rw [if_neg hex, runOps_changes_of_noDelete h rows fun e he hk hop => hex ⟨e, he, hop, hk⟩]

end Batch

/-- The sample events are events of their table. -/
theorem deviceEvent_ofTable (op : Op) (id label : String) (lsn commitLsn : ℕ) :
    (deviceEvent op (deviceRow id label) lsn commitLsn).OfTable .ascii "customer_devices"
      "CUSTOMER_DEVICES" ["id", "label"] where
  table := by
    show normalizePgTable "customer_devices" = _
    decide
  image := by
    refine ⟨deviceRow id label, by cases op <;> rfl, rfl, ?_⟩
    intro c hc
    have hid : c = "ID" := List.mem_singleton.mp hc
    have hnames : pgColToSf .ascii "id" = "ID" ∧ pgColToSf .ascii "label" = "LABEL" := by decide
    have hrow : (rowToSf .ascii (deviceRow id label)).entries =
        [("ID", .str id), ("LABEL", .str label)] := by
      have hdistinct : ((deviceRow id label).keys.map (pgColToSf .ascii)).Nodup := by
        show (["id", "label"].map (pgColToSf .ascii)).Nodup
        decide
      rw [entries_rowToSf hdistinct]
      simp only [deviceRow, List.map_cons, List.map_nil, hnames.1, hnames.2, convertValue,
        jsonbCols]
      rfl
    have hcell : (rowToSf .ascii (deviceRow id label)).get? "ID" = some (.str id) :=
      Dict.get?_eq_some_iff.mpr (by rw [hrow]; exact List.mem_cons_self)
    rw [hid, cell, hcell]
    exact PyVal.noConfusion

end PgSnowflakeCdc
