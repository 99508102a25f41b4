import PgSnowflakeCdc.Sink.Attempts

/-!
# Batches that touch no key twice, whatever their columns

The MERGE of a batch lists the columns of its first upsert.  A batch may hold rows with other columns;
what it leaves at a key is then decided by the one change that touches the key and by this list.

* `mergeColumns` — the column list;
* `HoldsChange` — the rows of a key hold what a change says about a list of columns;
* `rowsAt_flush_untouched` — a flush leaves alone the keys that its batch does not touch;
* `rowsAt_flush_touched` — **at a key that the batch touches, its change decides**, on the listed
  columns.
-/

namespace PgSnowflakeCdc

open OrderedDict RowNumbering KeyedRows

/-- The column list of the MERGE of a batch of one table. -/
def mergeColumns (P : Platform) (events : List ChangeEvent) : List String :=
  ((mergeRows P (events.filter (·.isUpsert))).head?.map Dict.keys).getD []

/-- The columns of the image of a change. -/
def imageColumns (P : Platform) (e : ChangeEvent) : List String := (rowToSf P (imageOf e)).keys

/-- The rows of a key hold what a change says about some columns: no row after a delete; after an
upsert a row, with the values of the image. -/
def HoldsChange (P : Platform) (sfTable : String) (cols : List String) (e : ChangeEvent)
    (rows : List SfRow) : Prop :=
  if e.isUpsert then rows ≠ [] ∧ ∀ r ∈ rows, ∀ c ∈ cols, r c = imageRow P sfTable (imageOf e) c
  else rows = []

/-- Two changes say the same about some columns. -/
def SameChange (P : Platform) (sfTable : String) (cols : List String) (e e' : ChangeEvent) : Prop :=
  e.isUpsert = e'.isUpsert ∧ (e'.isUpsert = true →
    ∀ c ∈ cols, imageRow P sfTable (imageOf e) c = imageRow P sfTable (imageOf e') c)

instance (P : Platform) (sfTable : String) (cols : List String) (e e' : ChangeEvent) :
    Decidable (SameChange P sfTable cols e e') :=
  inferInstanceAs (Decidable (_ ∧ _))

section Changes

variable {P : Platform} {sfTable : String} {cols cols' : List String} {e e' : ChangeEvent}
  {rows : List SfRow}

theorem holdsChange_upsert (hup : e.isUpsert = true) : HoldsChange P sfTable cols e rows ↔
    rows ≠ [] ∧ ∀ r ∈ rows, ∀ c ∈ cols, r c = imageRow P sfTable (imageOf e) c := by
  rw [HoldsChange, if_pos hup]

theorem holdsChange_delete (hup : e.isUpsert = false) :
    HoldsChange P sfTable cols e rows ↔ rows = [] := by
  rw [HoldsChange, if_neg (by simp [hup])]

/-- After an upsert a key with at most one row has exactly one, with the values of the image. -/
theorem HoldsChange.exists_row (h : HoldsChange P sfTable cols e rows) (hup : e.isUpsert = true)
    (hle : rows.length ≤ 1) :
    ∃ r, rows = [r] ∧ ∀ c ∈ cols, r c = imageRow P sfTable (imageOf e) c := by
  rw [holdsChange_upsert hup] at h
  obtain ⟨hne, hvalues⟩ := h
  obtain ⟨r, rfl⟩ := List.length_eq_one_iff.mp (le_antisymm hle (List.length_pos_iff.mpr hne))
  exact ⟨r, rfl, hvalues r (List.mem_singleton.mpr rfl)⟩

/-- Rows that hold a change hold every change that says the same. -/
theorem HoldsChange.of_same (h : HoldsChange P sfTable cols e rows)
    (hcols : e'.isUpsert = true → cols' ⊆ cols) (hsame : SameChange P sfTable cols' e e') :
    HoldsChange P sfTable cols' e' rows := by
  obtain ⟨hup, hvalues⟩ := hsame
  cases hup' : e'.isUpsert with
  | true =>
    rw [holdsChange_upsert (hup.trans hup')] at h
    rw [holdsChange_upsert hup']
    refine ⟨h.1, fun r hr c hc => ?_⟩
    rw [h.2 r hr c (hcols hup' hc), hvalues hup' c hc]
  | false =>
    rw [holdsChange_delete (hup.trans hup')] at h
    rw [holdsChange_delete hup']
    exact h

/-- Rows that hold two changes show that they say the same. -/
theorem HoldsChange.same (h : HoldsChange P sfTable cols e rows)
    (h' : HoldsChange P sfTable cols e' rows) : SameChange P sfTable cols e e' := by
  cases hup : e.isUpsert with
  | true =>
    rw [holdsChange_upsert hup] at h
    cases hup' : e'.isUpsert with
    | true =>
      rw [holdsChange_upsert hup'] at h'
      obtain ⟨r, hr⟩ := List.exists_mem_of_ne_nil rows h.1
      exact ⟨hup.trans hup'.symm, fun _ c hc => (h.2 r hr c hc).symm.trans (h'.2 r hr c hc)⟩
    | false =>
      rw [holdsChange_delete hup'] at h'
      exact absurd h' h.1
  | false =>
    rw [holdsChange_delete hup] at h
    cases hup' : e'.isUpsert with
    | true =>
      rw [holdsChange_upsert hup'] at h'
      exact absurd h h'.1
    | false => exact ⟨hup.trans hup'.symm, fun hne => absurd (hup'.symm.trans hne) Bool.false_ne_true⟩

end Changes

/-! ### The statements of a batch of one table -/

section Group

variable {P : Platform} {sfTable : String} {events : List ChangeEvent}
  (hkeyed : ∀ e ∈ events, e.KeyedIn P sfTable)

include hkeyed

/-- The MERGE of some upserts: each source row is an image, on the listed columns. -/
theorem mergeCurrent_listed (hpk : pkOf sfTable ≠ []) (hne : events.filter (·.isUpsert) ≠ []) :
    ∃ params,
      mergeCurrent P sfTable (pkOf sfTable) (events.filter (·.isUpsert)) =
        [.merge sfTable (pkOf sfTable) (mergeColumns P events) params] ∧
      sourceRows P sfTable (mergeColumns P events) params = ((events.filter (·.isUpsert)).map fun e c =>
        if c ∈ mergeColumns P events then imageRow P sfTable (imageOf e) c else .none) ∧
      pkOf sfTable ⊆ mergeColumns P events := by
  have hups : ∀ e ∈ events.filter (·.isUpsert), e.KeyedIn P sfTable :=
    fun e he => hkeyed e (List.mem_of_mem_filter he)
  have hrows := mergeRows_eq hpk hups fun e he => (List.mem_filter.mp he).2
  rw [mergeColumns, mergeCurrent, hrows]
  cases hsplit : events.filter (·.isUpsert) with
  | nil => exact absurd hsplit hne
  | cons e₀ rest =>
    refine ⟨_, rfl, ?_, ?_⟩
    · show sourceRows P sfTable (rowToSf P (imageOf e₀)).keys
          (((e₀ :: rest).map fun e => rowToSf P (imageOf e)).map fun row =>
            (rowToSf P (imageOf e₀)).keys.map (cell row)) = _
      rw [sourceRows, List.map_map, List.map_map]
      apply List.map_congr_left
      intro e _
      funext c
      rw [Function.comp_apply, Function.comp_apply, sourceRow_map, imageRow]
      rfl
    · obtain ⟨row, himage, hkey⟩ := hups e₀ (by rw [hsplit]; exact List.mem_cons_self)
      intro c hc
      show c ∈ (rowToSf P (imageOf e₀)).keys
      rw [imageOf_eq himage]
      exact mem_keys_of_cell (hkey c hc)

/-- When the images have the same columns, so has the MERGE. -/
theorem mem_mergeColumns (hpk : pkOf sfTable ≠ []) {columns : List String}
    (hcolumns : ∀ e ∈ events, (imageOf e).keys = columns) {e e' : ChangeEvent} (he : e ∈ events)
    (hup : e.isUpsert = true) (he' : (imageOf e').keys = columns) {c : String} :
    c ∈ mergeColumns P events ↔ c ∈ imageColumns P e' := by
  have hups : ∀ e ∈ events.filter (·.isUpsert), e.KeyedIn P sfTable :=
    fun e he => hkeyed e (List.mem_of_mem_filter he)
  have hmem : e ∈ events.filter (·.isUpsert) := List.mem_filter.mpr ⟨he, hup⟩
  rw [mergeColumns, mergeRows_eq hpk hups fun e he => (List.mem_filter.mp he).2]
  cases hsplit : events.filter (·.isUpsert) with
  | nil => exact absurd hsplit (List.ne_nil_of_mem hmem)
  | cons e₀ rest =>
    have he₀ : e₀ ∈ events := List.mem_of_mem_filter (hsplit ▸ List.mem_cons_self)
    show c ∈ (rowToSf P (imageOf e₀)).keys ↔ c ∈ (rowToSf P (imageOf e')).keys
    rw [mem_keys_rowToSf, mem_keys_rowToSf, hcolumns e₀ he₀, he']

/-- Restricted to columns that contain the key, an image keeps its key. -/
theorem keyOf_listed {cols : List String} (hcols : pkOf sfTable ⊆ cols) {e : ChangeEvent}
    (he : e ∈ events) :
    keyOf (pkOf sfTable) (fun c => if c ∈ cols then imageRow P sfTable (imageOf e) c else .none) =
      changeKey P sfTable e := by
  rw [changeKey_eq (hkeyed e he), keyOf, keyOf]
  apply List.map_congr_left
  intro c hc
  rw [if_pos (hcols hc)]

variable (hpk : pkOf sfTable ≠ []) (tie : Stmt → RowOrder) {k : List PyVal}

include hpk

/-- At a key that the batch does not touch, its statements do nothing. -/
theorem opAt_writeCurrent_untouched (hfree : ∀ e ∈ events, changeKey P sfTable e ≠ k) :
    ∀ stmt ∈ writeCurrent P sfTable events, stmt.opAt P tie sfTable k = .keep := by
  intro stmt hstmt
  rw [writeCurrent_eq, List.mem_append] at hstmt
  rcases hstmt with hstmt | hstmt
  · by_cases hne : events.filter (·.isUpsert) = []
    · rw [hne] at hstmt
      exact absurd hstmt List.not_mem_nil
    · obtain ⟨params, hmerge, hsource, hcols⟩ := mergeCurrent_listed hkeyed hpk hne
      rw [hmerge, List.mem_singleton] at hstmt
      subst hstmt
      have hnokey : ∀ s ∈ sourceRows P sfTable (mergeColumns P events) params,
          keyOf (pkOf sfTable) s ≠ k := by
        intro s hs
        rw [hsource] at hs
        obtain ⟨e, he, rfl⟩ := List.mem_map.mp hs
        rw [keyOf_listed hkeyed hcols (List.mem_of_mem_filter he)]
        exact hfree e (List.mem_of_mem_filter he)
      rw [Stmt.opAt, if_pos rfl, mergeOp, find?_qualifyFirst_eq_none _ _ hnokey]
  · have hdels : (deleteCurrent P sfTable (pkOf sfTable) (events.filter (·.op = .d))).map
        (Stmt.opAt P tie sfTable k) = (events.filter (·.op = .d)).map (changeOp P sfTable k) :=
      opAt_deleteCurrent (fun e he => hkeyed e (List.mem_of_mem_filter he))
        (fun e he => of_decide_eq_true (List.mem_filter.mp he).2) k
    have hop : stmt.opAt P tie sfTable k ∈ (events.filter (·.op = .d)).map (changeOp P sfTable k) := by
      rw [← hdels]
      exact List.mem_map_of_mem hstmt
    obtain ⟨e, he, heq⟩ := List.mem_map.mp hop
    rw [← heq, changeOp, if_neg (hfree e (List.mem_of_mem_filter he))]

/-- **At a key that the batch touches once, its change decides.** -/
theorem holdsChange_writeCurrent (hn : (events.map (changeKey P sfTable)).Nodup) {e : ChangeEvent}
    (he : e ∈ events) (rows : List SfRow) :
    HoldsChange P sfTable (mergeColumns P events) e (runOps .none
      ((writeCurrent P sfTable events).map (Stmt.opAt P tie sfTable (changeKey P sfTable e))) rows) := by
  have hdels : ∀ e ∈ events.filter (·.op = .d), e.KeyedIn P sfTable :=
    fun e he => hkeyed e (List.mem_of_mem_filter he)
  have hdel : ∀ e ∈ events.filter (·.op = .d), e.op = .d :=
    fun e he => of_decide_eq_true (List.mem_filter.mp he).2
  rw [writeCurrent_eq, List.map_append, runOps_append, opAt_deleteCurrent hdels hdel,
    runOps_deletes hdels hdel]
  cases hup : e.isUpsert with
  | false =>
    have hop := isUpsert_eq_false_iff.mp hup
    rw [holdsChange_delete hup, if_pos ⟨e, List.mem_filter.mpr ⟨he, decide_eq_true hop⟩, rfl⟩]
  | true =>
    have hmem : e ∈ events.filter (·.isUpsert) := List.mem_filter.mpr ⟨he, hup⟩
    obtain ⟨params, hmerge, hsource, hcols⟩ :=
      mergeCurrent_listed hkeyed hpk (List.ne_nil_of_mem hmem)
    -- the source has one row with this key, and every row order keeps it
    have hkeys : (sourceRows P sfTable (mergeColumns P events) params).map (keyOf (pkOf sfTable)) =
        (events.filter (·.isUpsert)).map (changeKey P sfTable) := by
      rw [hsource, List.map_map]
      apply List.map_congr_left
      intro e he
      exact keyOf_listed hkeyed hcols (List.mem_of_mem_filter he)
    have hsrc : ((sourceRows P sfTable (mergeColumns P events) params).map
        (keyOf (pkOf sfTable))).Nodup := by
      rw [hkeys]
      exact hn.sublist (List.filter_sublist.map _)
    have hrow : (fun c => if c ∈ mergeColumns P events then imageRow P sfTable (imageOf e) c
        else PyVal.none) ∈ sourceRows P sfTable (mergeColumns P events) params := by
      rw [hsource]
      exact List.mem_map_of_mem hmem
    have hfind := find?_key_of_mem (keyOf (pkOf sfTable)) hsrc hrow
    rw [keyOf_listed hkeyed hcols he] at hfind
    have hnodelete : ¬ ∃ d ∈ events.filter (·.op = .d), changeKey P sfTable d = changeKey P sfTable e := by
      rintro ⟨d, hd, hkey⟩
      have hsame := List.inj_on_of_nodup_map hn (List.mem_of_mem_filter hd) he hkey
      exact isUpsert_iff.mp hup (hsame ▸ hdel d hd)
    rw [holdsChange_upsert hup, if_neg hnodelete, hmerge, List.map_singleton, Stmt.opAt, if_pos rfl,
      qualifyFirst_of_nodup _ _ hsrc, mergeOp, hfind]
    refine ⟨act_assign_ne_nil PyVal.none _ rows, fun r hr c hc => ?_⟩
    obtain ⟨r', -, rfl⟩ := List.mem_map.mp hr
    simp only [overlay, if_pos hc, Option.getD_some]

end Group

/-! ### Flushes -/

/-- An event of a mapped table has an image with a non-null key of that table. -/
def ChangeEvent.KeyedImage (P : Platform) (e : ChangeEvent) : Prop :=
  ∀ target ∈ tableMap.get? (normalizePgTable e.table), e.KeyedIn P target.1

theorem ChangeEvent.KeyedImage.keyed {P : Platform} {e : ChangeEvent} (h : e.KeyedImage P) :
    e.Keyed P := by
  intro target htarget row hrow hup
  obtain ⟨row', himage, hkey⟩ := h target htarget
  rw [ChangeEvent.image, if_pos hup, hrow, Option.some.injEq] at himage
  rw [himage]
  exact hkey

/-- The events of a batch that are changes of a table. -/
def groupOf (pgTable : String) (batch : List ChangeEvent) : List ChangeEvent :=
  batch.filter fun e => normalizePgTable e.table = pgTable

theorem mem_groupOf {pgTable : String} {batch : List ChangeEvent} {e : ChangeEvent} :
    e ∈ groupOf pgTable batch ↔ e ∈ batch ∧ normalizePgTable e.table = pgTable := by
  rw [groupOf, List.mem_filter, decide_eq_true_eq]

section Flush

variable {P : Platform} {pgTable sfCurrent sfHistory : String}
  (hmap : tableMap.get? pgTable = some (sfCurrent, sfHistory)) {batch : List ChangeEvent}
  (hmapped : ∀ e ∈ batch, IsMapped e.table) (hkeyed : ∀ e ∈ batch, e.KeyedImage P)

include hmap hkeyed

theorem keyedIn_of_mem_group : ∀ e ∈ groupOf pgTable batch, e.KeyedIn P sfCurrent := by
  intro e he
  obtain ⟨hmem, htable⟩ := mem_groupOf.mp he
  exact hkeyed e hmem (sfCurrent, sfHistory) (by rw [htable]; exact hmap)

/-- An attempt at a key: the row operations of the statements it has executed. -/
theorem rowsAt_attempt (a : Attempt) (st : Store) (k : List PyVal) :
    rowsAt (keyOf (pkOf sfCurrent)) k (applyWrite P (batch, a) st sfCurrent) =
      runOps .none ((a.executed P batch).map (Stmt.opAt P a.tie sfCurrent k))
        (rowsAt (keyOf (pkOf sfCurrent)) k (st sfCurrent)) := by
  apply rowsAt_execute
  intro stmt hstmt
  exact keyedOn_writeBatch (fun e he => (hkeyed e he).keyed) (pkOf_of_mapped hmap).2.1 stmt
    (a.executed_subset P batch hstmt)

include hmapped

/-- **A flush leaves untouched keys alone.** -/
theorem rowsAt_flush_untouched {k : List PyVal}
    (hfree : ∀ e ∈ groupOf pgTable batch, changeKey P sfCurrent e ≠ k) (attempts : List Attempt)
    (st : Store) :
    rowsAt (keyOf (pkOf sfCurrent)) k
        (applyWrites P (attempts.map fun a => (batch, a)) st sfCurrent) =
      rowsAt (keyOf (pkOf sfCurrent)) k (st sfCurrent) := by
  have hgroup := keyedIn_of_mem_group hmap hkeyed
  have hkeep : ∀ tie, ∀ stmt ∈ (writeBatch P batch).1, stmt.opAt P tie sfCurrent k = .keep := by
    intro tie stmt hstmt
    by_cases hname : stmt.table = sfCurrent
    · have hmem : stmt ∈ (writeBatch P batch).1.filter (·.table = sfCurrent) :=
        List.mem_filter.mpr ⟨hstmt, decide_eq_true hname⟩
      rw [filter_writeBatch hmap hmapped] at hmem
      exact opAt_writeCurrent_untouched hgroup (pkOf_of_mapped hmap).1 tie hfree stmt hmem
    · exact opAt_of_table_ne hname k
  refine Replay.run_invariant
    (P := fun st' : Store => rowsAt (keyOf (pkOf sfCurrent)) k (st' sfCurrent) = _) _ rfl ?_
  intro w hw st' hst'
  obtain ⟨a, -, rfl⟩ := List.mem_map.mp hw
  rw [rowsAt_attempt hmap hkeyed a st' k, ← hst']
  refine Replay.run_invariant (P := fun rows => rows = _) _ rfl ?_
  intro o ho rows hrows
  obtain ⟨stmt, hstmt, rfl⟩ := List.mem_map.mp ho
  rw [hkeep a.tie stmt (a.executed_subset P batch hstmt)]
  exact hrows

/-- **After a flush that succeeds in the end, the keys it touches hold its changes**, on the columns of
its MERGE. -/
theorem rowsAt_flush_touched (honce : TouchedOnce P pgTable sfCurrent batch) {e : ChangeEvent}
    (he : e ∈ groupOf pgTable batch) (failed : List Attempt) {a : Attempt} (ha : a.succeeded = true)
    (st : Store) :
    HoldsChange P sfCurrent (mergeColumns P (groupOf pgTable batch)) e
      (rowsAt (keyOf (pkOf sfCurrent)) (changeKey P sfCurrent e)
        (applyWrites P ((failed ++ [a]).map fun a => (batch, a)) st sfCurrent)) := by
  have hgroup := keyedIn_of_mem_group hmap hkeyed
  have hfull : a.executed P batch = (writeBatch P batch).1 := by
    rw [Attempt.executed, Option.isNone_iff_eq_none.mp ha]
  rw [List.map_append, applyWrites_append]
  show HoldsChange P sfCurrent _ e (rowsAt _ _ (applyWrite P (batch, a) _ sfCurrent))
  rw [rowsAt_attempt hmap hkeyed a, hfull, ← runOps_filter_table, filter_writeBatch hmap hmapped]
  exact holdsChange_writeCurrent hgroup (pkOf_of_mapped hmap).1 a.tie honce he _

end Flush

end PgSnowflakeCdc
