import PgSnowflakeCdc.Scripts.Backfill

/-!
# Which columns an INSERT of the backfill names (`_backfill_table`)

The text of an INSERT is kept under the size of its batch, for the whole load of a table; the parameters
are those of the page's columns.  `SELECT *` may return other columns on a later page.

* `slices` — `range(0, len(sf_rows), INSERT_BATCH)` with the slices of a page;
* `loadPages` — the INSERTs of a sequence of pages; `run_inserting` — they are those of the script's steps;
* `executeBatches_iff` — a list of batches under a given cache;
* `shareBatchSize_iff` — which pages share a batch size;
* `pageInserts_iff` — **every INSERT names its page's columns exactly when pages that share a batch size
  have one column list.**
-/

namespace PgSnowflakeCdc

open OrderedDict

/-! ### Slices of a page -/

/-- `xs[start:start + k] for start in range(0, len(xs), k)`. -/
def slices {α : Type*} (k : ℕ) (xs : List α) : List (List α) :=
  (List.range ((xs.length + k - 1) / k)).map fun i => (xs.drop (k * i)).take k

theorem slices_nil {α : Type*} (k : ℕ) : slices k ([] : List α) = [] := by
  have hzero : (0 + k - 1) / k = 0 := by
    cases k with
    | zero => rfl
    | succ k => exact Nat.div_eq_of_lt (by omega)
  simp only [slices, List.length_nil, hzero, List.range_zero, List.map_nil]

/-- The loop takes one slice and goes on with the rest. -/
theorem slices_of_ne_nil {α : Type*} {k : ℕ} (hk : 0 < k) {xs : List α} (h : xs ≠ []) :
    slices k xs = xs.take k :: slices k (xs.drop k) := by
  have hlen : 0 < xs.length := List.length_pos_iff.mpr h
  have hcount : (xs.length + k - 1) / k = ((xs.drop k).length + k - 1) / k + 1 := by
    rw [List.length_drop]
    by_cases hlong : k ≤ xs.length
    · rw [show xs.length + k - 1 = (xs.length - k + k - 1) + k by omega, Nat.add_div_right _ hk]
    · rw [Nat.div_eq_of_lt (show xs.length - k + k - 1 < k by omega),
        show xs.length + k - 1 = (xs.length - 1) + k by omega, Nat.add_div_right _ hk,
        Nat.div_eq_of_lt (by omega)]
  rw [slices, hcount, List.range_succ_eq_map, List.map_cons, List.map_map]
  congr 1
  apply List.map_congr_left
  intro i _
  show (xs.drop (k * (i + 1))).take k = ((xs.drop k).drop (k * i)).take k
  rw [List.drop_drop, Nat.mul_add, Nat.mul_one, Nat.add_comm]

/-- **The sizes of the slices**: the whole slices, and what remains. -/
theorem length_mem_slices {α : Type*} {k : ℕ} (hk : 0 < k) (xs : List α) (n : ℕ) :
    (∃ b ∈ slices k xs, b.length = n) ↔
      (n = k ∧ k ≤ xs.length) ∨ (n = xs.length % k ∧ 0 < n) := by
  induction hlen : xs.length using Nat.strong_induction_on generalizing xs with
  | _ m ih =>
      subst hlen
      by_cases hxs : xs = []
      · subst hxs
        rw [slices_nil, List.length_nil, Nat.zero_mod]
        simp only [List.not_mem_nil, false_and, exists_false, false_iff]
        omega
      · have hpos : 0 < xs.length := List.length_pos_iff.mpr hxs
        have hdrop : (xs.drop k).length = xs.length - k := List.length_drop
        have hrest := ih (xs.drop k).length (by omega) (xs.drop k) rfl
        rw [slices_of_ne_nil hk hxs]
        simp only [List.mem_cons, exists_eq_or_imp, List.length_take]
        rw [hrest, hdrop]
        by_cases hlong : k ≤ xs.length
        · rw [Nat.min_eq_left hlong, Nat.mod_eq_sub_mod hlong]
          constructor
          · rintro (h | h | h)
            · exact Or.inl ⟨h.symm, hlong⟩
            · exact Or.inl ⟨h.1, hlong⟩
            · exact Or.inr h
          · rintro (h | h)
            · exact Or.inl h.1.symm
            · exact Or.inr (Or.inr h)
        · have hempty : xs.length - k = 0 := by omega
          rw [Nat.min_eq_right (by omega), hempty, Nat.zero_mod, Nat.mod_eq_of_lt (by omega)]
          omega

/-- Two pages have an INSERT batch of the same size. -/
def ShareBatchSize (k : ℕ) (page page' : List Row) : Prop :=
  (k ≤ page.length ∧ k ≤ page'.length) ∨
    (page.length % k = page'.length % k ∧ 0 < page.length % k)

theorem shareBatchSize_iff {k : ℕ} (hk : 0 < k) (page page' : List Row) :
    ShareBatchSize k page page' ↔
      ∃ b ∈ slices k page, ∃ b' ∈ slices k page', b.length = b'.length := by
  have hmod := Nat.mod_lt page.length hk
  have hmod' := Nat.mod_lt page'.length hk
  constructor
  · intro h
    have hsize : ∃ n, ((n = k ∧ k ≤ page.length) ∨ (n = page.length % k ∧ 0 < n)) ∧
        ((n = k ∧ k ≤ page'.length) ∨ (n = page'.length % k ∧ 0 < n)) := by
      rcases h with ⟨h, h'⟩ | ⟨h, h'⟩
      · exact ⟨k, Or.inl ⟨rfl, h⟩, Or.inl ⟨rfl, h'⟩⟩
      · exact ⟨page.length % k, Or.inr ⟨rfl, h'⟩, Or.inr ⟨h, h'⟩⟩
    obtain ⟨n, hpage, hpage'⟩ := hsize
    obtain ⟨b, hb, hlen⟩ := (length_mem_slices hk page n).mpr hpage
    obtain ⟨b', hb', hlen'⟩ := (length_mem_slices hk page' n).mpr hpage'
    exact ⟨b, hb, b', hb', hlen.trans hlen'.symm⟩
  · rintro ⟨b, hb, b', hb', hlen⟩
    have hpage := (length_mem_slices hk page b.length).mp ⟨b, hb, rfl⟩
    have hpage' := (length_mem_slices hk page' b.length).mp ⟨b', hb', hlen.symm⟩
    simp only [ShareBatchSize]
    omega

/-! ### The INSERTs of a load -/

/-- One executed INSERT, with the page's columns and the batch that its parameters were taken from. -/
structure PageInsert where
  allCols : List String
  batch : List Row
  stmt : Stmt

/-- The statement names exactly the columns, in order, from which its parameters were taken. -/
def PageInsert.NamesOwnColumns (P : Platform) (sfTable : String) (e : PageInsert) : Prop :=
  e.stmt = .insert sfTable e.allCols
    (e.batch.map fun row => e.allCols.map (cell (backfillRowToSf P row)))

instance (P : Platform) (sfTable : String) (e : PageInsert) : Decidable (e.NamesOwnColumns P sfTable) :=
  inferInstanceAs (Decidable (_ = _))

section Load

variable (P : Platform) (sfTable : String)

/-- The batch loop over one page: its INSERTs and the cache behind it. -/
def insertBatches (allCols : List String) :
    Dict ℕ (List String) → List (List Row) → List PageInsert × Dict ℕ (List String)
  | sqlCache, [] => ([], sqlCache)
  | sqlCache, batch :: rest =>
    let first := batchInsert P sfTable allCols sqlCache batch
    let later := insertBatches allCols first.2 rest
    (⟨allCols, batch, first.1⟩ :: later.1, later.2)

/-- The paging loop over the pages fetched; it ends with the first empty one. -/
def loadPages (insertBatch : ℕ) : Dict ℕ (List String) → List (List Row) → List PageInsert
  | _, [] => []
  | sqlCache, page :: pages =>
    if page.isEmpty then []
    else
      let inserts := insertBatches P sfTable (pageColumns P page) sqlCache (slices insertBatch page)
      inserts.1 ++ loadPages insertBatch inserts.2 pages

/-- The batches of a load, each with the columns of its page. -/
def loadBatches (insertBatch : ℕ) : List (List Row) → List (List String × List Row)
  | [] => []
  | page :: pages =>
    if page.isEmpty then []
    else (slices insertBatch page).map (pageColumns P page, ·) ++ loadBatches insertBatch pages

/-- The two loops as one, over batches with their columns. -/
def executeBatches : Dict ℕ (List String) → List (List String × List Row) →
    List PageInsert × Dict ℕ (List String)
  | sqlCache, [] => ([], sqlCache)
  | sqlCache, (allCols, batch) :: rest =>
    let first := batchInsert P sfTable allCols sqlCache batch
    let later := executeBatches first.2 rest
    (⟨allCols, batch, first.1⟩ :: later.1, later.2)

variable {P sfTable}

theorem executeBatches_append (sqlCache : Dict ℕ (List String)) (xs ys : List (List String × List Row)) :
    (executeBatches P sfTable sqlCache (xs ++ ys)).1 =
      (executeBatches P sfTable sqlCache xs).1 ++
        (executeBatches P sfTable (executeBatches P sfTable sqlCache xs).2 ys).1 := by
  induction xs generalizing sqlCache with
  | nil => rfl
  | cons x xs ih =>
      obtain ⟨allCols, batch⟩ := x
      simp only [List.cons_append, executeBatches, ih]

theorem insertBatches_eq (allCols : List String) (sqlCache : Dict ℕ (List String))
    (batches : List (List Row)) :
    insertBatches P sfTable allCols sqlCache batches =
      executeBatches P sfTable sqlCache (batches.map (allCols, ·)) := by
  induction batches generalizing sqlCache with
  | nil => rfl
  | cons batch batches ih => simp only [List.map_cons, insertBatches, executeBatches, ih]

theorem loadPages_eq (insertBatch : ℕ) (sqlCache : Dict ℕ (List String)) (pages : List (List Row)) :
    loadPages P sfTable insertBatch sqlCache pages =
      (executeBatches P sfTable sqlCache (loadBatches P insertBatch pages)).1 := by
  induction pages generalizing sqlCache with
  | nil => rfl
  | cons page pages ih =>
      rw [loadPages, loadBatches]
      split
      · rfl
      · rw [executeBatches_append, insertBatches_eq]
        dsimp only
        rw [ih]

/-- The pages of a load: those in front of the first empty one. -/
def loadedPages (pages : List (List Row)) : List (List Row) := pages.takeWhile fun page => !page.isEmpty

theorem mem_loadBatches {insertBatch : ℕ} {pages : List (List Row)} {b : List String × List Row} :
    b ∈ loadBatches P insertBatch pages ↔
      ∃ page ∈ loadedPages pages, b.1 = pageColumns P page ∧ b.2 ∈ slices insertBatch page := by
  induction pages with
  | nil => simp [loadBatches, loadedPages]
  | cons page pages ih =>
      rw [loadBatches, loadedPages, List.takeWhile_cons]
      cases hempty : page.isEmpty with
      | true => simp
      | false =>
          have hhere : b ∈ (slices insertBatch page).map (pageColumns P page, ·) ↔
              b.1 = pageColumns P page ∧ b.2 ∈ slices insertBatch page := by
            obtain ⟨cols, batch⟩ := b
            simp only [List.mem_map, Prod.mk.injEq]
            constructor
            · rintro ⟨batch', hbatch, rfl, rfl⟩
              exact ⟨rfl, hbatch⟩
            · rintro ⟨rfl, hbatch⟩
              exact ⟨batch, hbatch, rfl, rfl⟩
          rw [if_neg Bool.false_ne_true, List.mem_append, ih, hhere]
          simp [loadedPages]

/-! ### The steps of the script -/

/-- **The steps of the script over a page execute these INSERTs.** -/
theorem run_inserting (cfg : BackfillConfig) (source : BackfillSource) (o : Paging.KeyOrder rowId)
    (load : Backfill.Load) (page left : List Row) (cp : Checkpoint) (file : Option Checkpoint)
    (tables : Store)
    (hok : ∀ e ∈ (insertBatches P load.sfTable (pageColumns P page) load.sqlCache
      (slices cfg.insertBatch left)).1, e.stmt.Succeeds P) :
    Replay.run (Backfill.step P cfg source)
        (List.replicate (slices cfg.insertBatch left).length (.proceed o))
        ⟨.inserting load page left, cp, file, tables⟩ =
      let inserts := insertBatches P load.sfTable (pageColumns P page) load.sqlCache
        (slices cfg.insertBatch left)
      ⟨.inserting { load with sqlCache := inserts.2 } page [], cp, file,
        execute P lastFirstTie (inserts.1.map PageInsert.stmt) tables⟩ := by
  induction hlen : left.length using Nat.strong_induction_on generalizing left load tables with
  | _ n ih =>
      subst hlen
      by_cases hleft : left = []
      · subst hleft
        rw [slices_nil]
        rfl
      · have hshorter : (left.drop cfg.insertBatch).length < left.length := by
          have hpos : 0 < left.length := List.length_pos_iff.mpr hleft
          have hbatch := cfg.insertBatch_pos
          rw [List.length_drop]
          omega
        rw [slices_of_ne_nil cfg.insertBatch_pos hleft, insertBatches] at hok
        dsimp only at hok
        rw [List.forall_mem_cons] at hok
        have hproceed : Backfill.step P cfg source (.proceed o)
            ⟨.inserting load page left, cp, file, tables⟩ =
            let first := batchInsert P load.sfTable (pageColumns P page) load.sqlCache
              (left.take cfg.insertBatch)
            ⟨.inserting { load with sqlCache := first.2 } page (left.drop cfg.insertBatch), cp, file,
              execute P lastFirstTie [first.1] tables⟩ := by
          simp [Backfill.step, Backfill.proceed, hleft, hok.1]
        rw [slices_of_ne_nil cfg.insertBatch_pos hleft, List.length_cons, List.replicate_succ,
          Replay.run_cons, hproceed]
        dsimp only
        rw [ih _ hshorter _ _ _ hok.2 rfl]
        rfl

/-! ### What the cache holds -/

theorem namesOwnColumns_iff (allCols : List String) (sqlCache : Dict ℕ (List String))
    (batch : List Row) :
    (PageInsert.mk allCols batch
        (batchInsert P sfTable allCols sqlCache batch).1).NamesOwnColumns P sfTable ↔
      ∀ cols, sqlCache.get? batch.length = some cols → cols = allCols := by
  rw [PageInsert.NamesOwnColumns, batchInsert_fst]
  cases sqlCache.get? batch.length with
  | none => simp
  | some cols => simp

/-- The columns in the cache are those of every batch of their size. -/
def CacheFits (sqlCache : Dict ℕ (List String)) (bs : List (List String × List Row)) : Prop :=
  ∀ b ∈ bs, ∀ cols, sqlCache.get? b.2.length = some cols → cols = b.1

/-- Batches of one size have one column list. -/
def OneColumnList (bs : List (List String × List Row)) : Prop :=
  ∀ b ∈ bs, ∀ b' ∈ bs, b.2.length = b'.2.length → b.1 = b'.1

/-- A batch adds its own columns to what the later batches have to fit. -/
theorem cacheFits_batchInsert {allCols : List String} {sqlCache : Dict ℕ (List String)}
    {batch : List Row} (hfirst : ∀ cols, sqlCache.get? batch.length = some cols → cols = allCols)
    (bs : List (List String × List Row)) :
    CacheFits (batchInsert P sfTable allCols sqlCache batch).2 bs ↔
      CacheFits sqlCache bs ∧ ∀ b ∈ bs, b.2.length = batch.length → b.1 = allCols := by
  have hown : (sqlCache.get? batch.length).getD allCols = allCols := by
    cases hget : sqlCache.get? batch.length with
    | none => rfl
    | some cols => exact hfirst cols hget
  simp only [CacheFits, get?_batchInsert_snd]
  constructor
  · intro h
    have hsame : ∀ b ∈ bs, b.2.length = batch.length → b.1 = allCols := by
      intro b hb hlen
      have hcols := h b hb allCols (by rw [if_pos hlen, hlen, hown])
      exact hcols.symm
    refine ⟨fun b hb cols hget => ?_, hsame⟩
    by_cases hlen : b.2.length = batch.length
    · rw [hsame b hb hlen]
      exact hfirst cols (hlen ▸ hget)
    · exact h b hb cols (by rw [if_neg hlen, hget])
  · rintro ⟨hcached, hsame⟩ b hb cols hget
    by_cases hlen : b.2.length = batch.length
    · rw [if_pos hlen, hlen, hown] at hget
      exact (Option.some.inj hget).symm.trans (hsame b hb hlen).symm
    · rw [if_neg hlen] at hget
      exact hcached b hb cols hget

theorem oneColumnList_cons {allCols : List String} {batch : List Row}
    {bs : List (List String × List Row)} :
    OneColumnList ((allCols, batch) :: bs) ↔
      (∀ b ∈ bs, b.2.length = batch.length → b.1 = allCols) ∧ OneColumnList bs := by
  constructor
  · intro h
    exact ⟨fun b hb hlen => h b (List.mem_cons_of_mem _ hb) (allCols, batch) List.mem_cons_self hlen,
      fun b hb b' hb' => h b (List.mem_cons_of_mem _ hb) b' (List.mem_cons_of_mem _ hb')⟩
  · rintro ⟨hsame, h⟩ b hb b' hb' hlen
    rcases List.mem_cons.mp hb with rfl | hb
    · rcases List.mem_cons.mp hb' with rfl | hb'
      · rfl
      · exact (hsame b' hb' hlen.symm).symm
    · rcases List.mem_cons.mp hb' with rfl | hb'
      · exact hsame b hb hlen
      · exact h b hb b' hb' hlen

/-- **A list of batches under a given cache**: every text is right exactly when the cached texts fit the
batches of their size, and batches of one size have one column list. -/
theorem executeBatches_iff (sqlCache : Dict ℕ (List String)) (bs : List (List String × List Row)) :
    (∀ e ∈ (executeBatches P sfTable sqlCache bs).1, e.NamesOwnColumns P sfTable) ↔
      CacheFits sqlCache bs ∧ OneColumnList bs := by
  induction bs generalizing sqlCache with
  | nil => simp [executeBatches, CacheFits, OneColumnList]
  | cons b bs ih =>
      obtain ⟨allCols, batch⟩ := b
      have hcons : CacheFits sqlCache ((allCols, batch) :: bs) ↔
          (∀ cols, sqlCache.get? batch.length = some cols → cols = allCols) ∧
            CacheFits sqlCache bs := List.forall_mem_cons
      rw [executeBatches]
      dsimp only
      rw [List.forall_mem_cons, ih, namesOwnColumns_iff, hcons, oneColumnList_cons, and_assoc]
      refine and_congr_right fun hfirst => ?_
      rw [cacheFits_batchInsert hfirst, and_assoc]

end Load

/-- **Every INSERT of a load names its page's columns exactly when pages that share a batch size have one
column list**: for every sequence of pages, every page size and every insert batch. -/
theorem pageInserts_iff (P : Platform) (cfg : BackfillConfig) (sfTable : String)
    (pages : List (List Row)) :
    (∀ e ∈ loadPages P sfTable cfg.insertBatch ∅ pages, e.NamesOwnColumns P sfTable) ↔
      ∀ page ∈ loadedPages pages, ∀ page' ∈ loadedPages pages,
        ShareBatchSize cfg.insertBatch page page' → pageColumns P page = pageColumns P page' := by
  have hempty : CacheFits ∅ (loadBatches P cfg.insertBatch pages) := by
    intro b hb cols hget
    cases hget
  rw [loadPages_eq, executeBatches_iff, and_iff_right hempty]
  simp only [shareBatchSize_iff cfg.insertBatch_pos]
  constructor
  · rintro h page hpage page' hpage' ⟨b, hb, b', hb', hlen⟩
    exact h (pageColumns P page, b) (mem_loadBatches.mpr ⟨page, hpage, rfl, hb⟩)
      (pageColumns P page', b') (mem_loadBatches.mpr ⟨page', hpage', rfl, hb'⟩) hlen
  · intro h b hb b' hb' hlen
    obtain ⟨page, hpage, hcols, hslice⟩ := mem_loadBatches.mp hb
    obtain ⟨page', hpage', hcols', hslice'⟩ := mem_loadBatches.mp hb'
    rw [hcols, hcols']
    exact h page hpage page' hpage' ⟨b.2, hslice, b'.2, hslice', hlen⟩

/-- A page with one device, before and after `label` is dropped and `alias` is added. -/
def alteredPages : List (List Row) :=
  [[⟨[("id", .int 1), ("label", .str "tv"), ("note", .str "spare")], by simp⟩],
    [⟨[("id", .int 2), ("note", .str "broken"), ("alias", .str "radio")], by simp⟩]]

/-- **After the ALTER TABLE the note is stored as label and the alias as note.** -/
theorem alteredPages_misnamed :
    (loadPages .ascii "CUSTOMER_DEVICES" 500 ∅ alteredPages).map PageInsert.stmt =
        [.insert "CUSTOMER_DEVICES" ["ID", "LABEL", "NOTE"] [[.int 1, .str "tv", .str "spare"]],
          .insert "CUSTOMER_DEVICES" ["ID", "LABEL", "NOTE"] [[.int 2, .str "broken", .str "radio"]]] ∧
      (loadPages .ascii "CUSTOMER_DEVICES" 500 ∅ alteredPages).map PageInsert.allCols =
        [["ID", "LABEL", "NOTE"], ["ID", "NOTE", "ALIAS"]] ∧
      ¬ ∀ e ∈ loadPages .ascii "CUSTOMER_DEVICES" 500 ∅ alteredPages,
        e.NamesOwnColumns .ascii "CUSTOMER_DEVICES" := by
  decide +kernel

end PgSnowflakeCdc
