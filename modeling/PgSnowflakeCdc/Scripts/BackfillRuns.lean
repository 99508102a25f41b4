import PgSnowflakeCdc.Scripts.Backfill

/-!
# Histories of backfill runs

What the target tables hold after any history of runs of `backfill.py`, each of which may end between
any two steps and is resumed from the checkpoint.

* `run_ends` — every process left alone returns, or comes to an INSERT that raises;
* `Consistent` — the checkpoint, the place of the process and the page in its hands fit together;
* `held_run` — **what a table holds, carried through a history**: a property of the rows of a table that
  the TRUNCATE, the INSERTs and the checkpoint saves keep;
* `loadInvariant_exact`, `loadInvariant_covers` — two such properties.
-/

namespace PgSnowflakeCdc

open OrderedDict Paging

namespace Backfill

/-! ### Every run ends -/

/-- Steps enough for the tables still to visit. -/
def tablesWeight (source : BackfillSource) (rest : List (String × String)) : ℕ :=
  (rest.map fun t => 3 * (source.rows t.1).length + 4).sum

/-- Steps enough from a place on. -/
def weight (source : BackfillSource) : Control → ℕ
  | .stopped => tablesWeight source backfillTables + 2
  | .nextTable rest => tablesWeight source rest + 1
  | .truncating load =>
    3 * (beyond rowId (source.rows load.pgTable) load.lastId).length + 4 +
      tablesWeight source load.rest
  | .querying load =>
    3 * (beyond rowId (source.rows load.pgTable) load.lastId).length + 3 +
      tablesWeight source load.rest
  | .inserting load page left =>
    left.length + 4 +
      3 * (beyond rowId (source.rows load.pgTable) (pageEnd page load.lastId)).length +
      tablesWeight source load.rest
  | .finishing load => tablesWeight source load.rest + 2
  | .completed => 0

theorem pageEnd_eq {page : List Row} (h : page ≠ []) (lastId : ℤ) :
    pageEnd page lastId = rowId (page.getLast h) := by
  rw [pageEnd, List.getLast?_eq_some_getLast h]
  rfl

section Steps

variable {P : Platform} {cfg : BackfillConfig} {source : BackfillSource}

variable (P cfg source) in
/-- **Every step brings a process closer to its end.** -/
theorem proceed_weight (o : KeyOrder rowId) (s : State) (h : s.control ≠ .completed)
    (hraises : ¬ Raises P cfg s) :
    weight source (proceed P cfg source o s).control < weight source s.control := by
  obtain ⟨control, cp, file, tables⟩ := s
  cases control with
  | stopped => exact Nat.lt_succ_self _
  | nextTable rest =>
    cases rest with
    | nil => exact Nat.one_pos
    | cons t rest =>
      have hsum : tablesWeight source (t :: rest) =
          3 * (source.rows t.1).length + 4 + tablesWeight source rest := by
        rw [tablesWeight, List.map_cons, List.sum_cons]
        rfl
      have hle : (beyond rowId (source.rows t.1) (cp.lastId t.1)).length ≤ (source.rows t.1).length :=
        List.length_filter_le _ _
      simp only [proceed]
      split
      · simp only [weight]
        omega
      · split <;> simp only [weight] <;> omega
  | truncating load =>
    simp only [proceed, weight]
    omega
  | querying load =>
    simp only [proceed]
    split
    · simp only [weight]
      omega
    · next hpage =>
      have hne : o.page (source.rows load.pgTable) load.lastId cfg.pageSize ≠ [] := by
        simpa using hpage
      have hpos := List.length_pos_iff.mpr hne
      have hrest := length_beyond_add_page o hne
      simp only [weight, pageEnd_eq hne]
      omega
  | inserting load page left =>
    simp only [proceed]
    split
    · next hleft =>
      rw [List.isEmpty_iff.mp hleft]
      simp only [weight]
      omega
    · next hleft =>
      have hne : left ≠ [] := by simpa using hleft
      have hpos : 0 < left.length := List.length_pos_iff.mpr hne
      have hbatch := cfg.insertBatch_pos
      split
      · simp only [weight, List.length_drop]
        omega
      · next hfails => exact absurd ⟨hne, hfails⟩ hraises
  | finishing load => exact Nat.lt_succ_self _
  | completed => exact absurd rfl h

/-- Where a process comes to its end: `main` has returned, or an INSERT raises. -/
def Ends (P : Platform) (cfg : BackfillConfig) (s : State) : Prop :=
  s.control = .completed ∨ Raises P cfg s

theorem step_of_ends {s : State} (h : Ends P cfg s) (o : KeyOrder rowId) :
    step P cfg source (.proceed o) s = s := by
  rcases h with hdone | hraises
  · rw [step, proceed, hdone]
  · exact proceed_of_raises hraises source o

theorem run_of_ends {s : State} (h : Ends P cfg s) (orders : List (KeyOrder rowId)) :
    run P cfg source (orders.map .proceed) s = s := by
  induction orders with
  | nil => rfl
  | cons o orders ih =>
    show run P cfg source (orders.map .proceed) (step P cfg source (.proceed o) s) = s
    rw [step_of_ends h, ih]

/-- **A process left alone comes to its end.** -/
theorem run_ends (orders : List (KeyOrder rowId)) (s : State)
    (h : weight source s.control ≤ orders.length) :
    Ends P cfg (run P cfg source (orders.map .proceed) s) := by
  induction orders generalizing s with
  | nil =>
    by_contra hends
    obtain ⟨hdone, hraises⟩ := not_or.mp hends
    have hlt := proceed_weight P cfg source (.stable rowId) s hdone hraises
    rw [List.length_nil] at h
    omega
  | cons o orders ih =>
    by_cases hends : Ends P cfg s
    · rw [run_of_ends hends]
      exact hends
    · obtain ⟨hdone, hraises⟩ := not_or.mp hends
      have hlt := proceed_weight P cfg source o s hdone hraises
      rw [List.length_cons] at h
      exact ih _ (Nat.le_of_lt_succ (Nat.lt_of_lt_of_le hlt h))

end Steps

/-! ### Checkpoint, place and page fit together -/

/-- The load of a table is what its place in the loop says, and its cached texts are for the columns of
the table. -/
structure Load.Current (P : Platform) (source : BackfillSource) (saved : Checkpoint) (load : Load) :
    Prop where
  visited : ∃ before, backfillTables = before ++ (load.pgTable, load.sfTable) :: load.rest ∧
    ∀ t ∈ before, saved.done t.1 = true
  lastId : load.lastId = saved.lastId load.pgTable
  cache : CachesOnly (sfColumns P (source.columns load.pgTable)) load.sqlCache

theorem Load.Current.mem {P : Platform} {source : BackfillSource} {saved : Checkpoint} {load : Load}
    (h : load.Current P source saved) : (load.pgTable, load.sfTable) ∈ backfillTables := by
  obtain ⟨before, hsplit, -⟩ := h.visited
  rw [hsplit]
  exact List.mem_append_right _ List.mem_cons_self

/-- Where control can be, given what the checkpoint file says. -/
def Placed (P : Platform) (cfg : BackfillConfig) (source : BackfillSource) (saved : Checkpoint) :
    Control → Prop
  | .stopped => True
  | .nextTable rest => ∃ before, backfillTables = before ++ rest ∧ ∀ t ∈ before, saved.done t.1 = true
  | .truncating load => load.Current P source saved ∧ load.lastId = 0
  | .querying load => load.Current P source saved
  | .inserting load page left => load.Current P source saved ∧ page ≠ [] ∧ left <:+ page ∧
    ∃ o : KeyOrder rowId, page = o.page (source.rows load.pgTable) load.lastId cfg.pageSize
  | .finishing load => load.Current P source saved ∧
    ∀ r ∈ source.rows load.pgTable, rowId r ≤ load.lastId
  | .completed => ∀ t ∈ backfillTables, saved.done t.1 = true

/-- A state in which checkpoint, place and page fit together. -/
structure Consistent (P : Platform) (cfg : BackfillConfig) (source : BackfillSource) (s : State) :
    Prop where
  cp : s.control = .stopped ∨ s.cp = s.saved
  placed : Placed P cfg source s.saved s.control
  done : ∀ t ∈ backfillTables, s.saved.done t.1 = true →
    ∀ r ∈ source.rows t.1, rowId r ≤ s.saved.lastId t.1

section Consistent

variable {P : Platform} {cfg : BackfillConfig} {source : BackfillSource} {s : State}

theorem consistent_initial (tables : Store) : Consistent P cfg source (.initial tables) where
  cp := Or.inl rfl
  placed := trivial
  done t _ h := by cases h

/-- The done flag of a table extends the tables visited. -/
theorem visited_setDone {cp : Checkpoint} {before : List (String × String)} {t : String × String}
    (h : ∀ t ∈ before, cp.done t.1 = true) :
    ∀ t' ∈ before ++ [t], (cp.setDone t.1).done t'.1 = true := by
  intro t' ht'
  rw [Checkpoint.done_setDone]
  split
  · rfl
  · next hne =>
    rcases List.mem_append.mp ht' with ht' | ht'
    · exact h t' ht'
    · exact absurd (congrArg Prod.fst (List.mem_singleton.mp ht')) hne

/-- A turn of the table loop. -/
theorem Consistent.nextTable {rest : List (String × String)} {cp : Checkpoint}
    {file : Option Checkpoint} {tables : Store} (o : KeyOrder rowId)
    (h : Consistent P cfg source ⟨.nextTable rest, cp, file, tables⟩) :
    Consistent P cfg source (proceed P cfg source o ⟨.nextTable rest, cp, file, tables⟩) := by
  obtain ⟨hcp, hplaced, hdone⟩ := h
  have hcp : cp = loadCheckpoint file := hcp.resolve_left nofun
  subst hcp
  obtain ⟨before, hsplit, hbefore⟩ := hplaced
  cases rest with
  | nil =>
    rw [List.append_nil] at hsplit
    exact ⟨Or.inr rfl, fun t ht => hbefore t (hsplit ▸ ht), hdone⟩
  | cons t rest =>
    simp only [Backfill.proceed]
    split
    · next hskip =>
      refine ⟨Or.inr rfl, ⟨before ++ [t], by rw [hsplit]; simp, ?_⟩, hdone⟩
      intro t' ht'
      rcases List.mem_append.mp ht' with ht' | ht'
      · exact hbefore t' ht'
      · rw [List.mem_singleton.mp ht']
        exact hskip
    · have hcurrent : Load.Current P source (loadCheckpoint file)
          ⟨t.1, t.2, rest, (loadCheckpoint file).lastId t.1, ∅⟩ :=
        ⟨⟨before, hsplit, hbefore⟩, rfl, fun n cols hget => by cases hget⟩
      split
      · next hzero => exact ⟨Or.inr rfl, ⟨hcurrent, hzero⟩, hdone⟩
      · exact ⟨Or.inr rfl, hcurrent, hdone⟩

/-- The checkpoint behind a page, or one more INSERT of it. -/
theorem Consistent.insertPage {load : Load} {page left : List Row} {cp : Checkpoint}
    {file : Option Checkpoint} {tables : Store} (o : KeyOrder rowId)
    (h : Consistent P cfg source ⟨.inserting load page left, cp, file, tables⟩) :
    Consistent P cfg source (proceed P cfg source o ⟨.inserting load page left, cp, file, tables⟩) := by
  obtain ⟨hcp, hplaced, hdone⟩ := h
  have hcp : cp = loadCheckpoint file := hcp.resolve_left nofun
  subst hcp
  obtain ⟨⟨hvisited, hlastId, hcache⟩, hne, hleft, o', hpage⟩ := hplaced
  simp only [Backfill.proceed]
  split
  · refine ⟨Or.inr rfl, ⟨hvisited, ?_, hcache⟩, ?_⟩
    · show _ = ((loadCheckpoint file).setLastId load.pgTable _).lastId load.pgTable
      rw [Checkpoint.lastId_setLastId, if_pos rfl]
    · intro t ht htdone r hr
      have hold : rowId r ≤ (loadCheckpoint file).lastId t.1 := hdone t ht htdone r hr
      show rowId r ≤ ((loadCheckpoint file).setLastId load.pgTable _).lastId t.1
      rw [Checkpoint.lastId_setLastId]
      split
      · next heq =>
        -- ids only grow
        have hgrow := last_lt_getLast o' (hpage ▸ hne)
        have hlast : load.lastId = (loadCheckpoint file).lastId load.pgTable := hlastId
        simp only [← hpage] at hgrow
        rw [heq, ← hlast] at hold
        rw [pageEnd_eq hne]
        exact hold.trans hgrow.le
      · exact hold
  · split
    case isFalse => exact ⟨Or.inr rfl, ⟨⟨hvisited, hlastId, hcache⟩, hne, hleft, o', hpage⟩, hdone⟩
    refine ⟨Or.inr rfl, ⟨⟨hvisited, hlastId, ?_⟩, hne, (List.drop_suffix _ _).trans hleft, o', hpage⟩,
      hdone⟩
    have hcolumns : pageColumns P page = sfColumns P (source.columns load.pgTable) := by
      obtain ⟨first, rest, rfl⟩ := List.exists_cons_of_ne_nil hne
      have hfirst : first ∈ o'.page (source.rows load.pgTable) load.lastId cfg.pageSize :=
        hpage ▸ List.mem_cons_self
      rw [pageColumns, keys_backfillRowToSf, source.listed _ first (mem_of_mem_page o' hfirst).1]
    rw [hcolumns]
    exact batchInsert_cache (P := P) hcache load.sfTable _

/-- The done flag behind the paging loop. -/
theorem Consistent.finish {load : Load} {cp : Checkpoint} {file : Option Checkpoint} {tables : Store}
    (o : KeyOrder rowId) (h : Consistent P cfg source ⟨.finishing load, cp, file, tables⟩) :
    Consistent P cfg source (proceed P cfg source o ⟨.finishing load, cp, file, tables⟩) := by
  obtain ⟨hcp, hplaced, hdone⟩ := h
  have hcp : cp = loadCheckpoint file := hcp.resolve_left nofun
  subst hcp
  obtain ⟨⟨⟨before, hsplit, hbefore⟩, hlastId, -⟩, hend⟩ := hplaced
  have hsave : (loadCheckpoint file).setLastId load.pgTable load.lastId = loadCheckpoint file :=
    Checkpoint.setLastId_self hlastId
  simp only [Backfill.proceed, hsave]
  refine ⟨Or.inr rfl, ⟨before ++ [(load.pgTable, load.sfTable)], by rw [hsplit]; simp,
    visited_setDone hbefore⟩, ?_⟩
  intro t ht htdone r hr
  show rowId r ≤ (loadCheckpoint file).lastId t.1
  have htdone : ((loadCheckpoint file).setDone load.pgTable).done t.1 = true := htdone
  rw [Checkpoint.done_setDone] at htdone
  split at htdone
  · next heq =>
    have hlast : load.lastId = (loadCheckpoint file).lastId load.pgTable := hlastId
    rw [heq] at hr ⊢
    rw [← hlast]
    exact hend r hr
  · exact hdone t ht htdone r hr

theorem Consistent.proceed (h : Consistent P cfg source s) (o : KeyOrder rowId) :
    Consistent P cfg source (proceed P cfg source o s) := by
  obtain ⟨control, cp, file, tables⟩ := s
  cases control with
  | stopped => exact ⟨Or.inr rfl, ⟨[], rfl, nofun⟩, h.done⟩
  | nextTable rest => exact h.nextTable o
  | truncating load => exact ⟨Or.inr (h.cp.resolve_left nofun), h.placed.1, h.done⟩
  | querying load =>
    have hcp := h.cp.resolve_left nofun
    simp only [Backfill.proceed]
    split
    · next hpage =>
      refine ⟨Or.inr hcp, ⟨h.placed, ?_⟩, h.done⟩
      exact (page_eq_nil_iff o cfg.pageSize_pos).mp (List.isEmpty_iff.mp hpage)
    · next hpage =>
      exact ⟨Or.inr hcp, ⟨h.placed, by simpa using hpage, List.suffix_refl _, o, rfl⟩, h.done⟩
  | inserting load page left => exact h.insertPage o
  | finishing load => exact h.finish o
  | completed => exact h

theorem Consistent.crash (h : Consistent P cfg source s) : Consistent P cfg source (crash s) := by
  obtain ⟨control, cp, file, tables⟩ := s
  cases control with
  | completed => exact h
  | _ => exact ⟨Or.inl rfl, trivial, h.done⟩

theorem Consistent.step (h : Consistent P cfg source s) (i : Input) :
    Consistent P cfg source (step P cfg source i s) := by
  cases i with
  | proceed o => exact h.proceed o
  | crash => exact h.crash

end Consistent

/-! ### What a table holds -/

/-- The paging loop of a table is running. -/
def Loading (pgTable : String) : Control → Prop
  | .querying load => load.pgTable = pgTable
  | .inserting load _ _ => load.pgTable = pgTable
  | .finishing load => load.pgTable = pgTable
  | _ => False

/-- The rows of the current page of a table that have been inserted. -/
def inserted (pgTable : String) : Control → List Row
  | .inserting load page left =>
    if load.pgTable = pgTable then page.take (page.length - left.length) else []
  | _ => []

/-- A property of a table that loading keeps, given the last id in the checkpoint and the rows of the
current page that have been inserted. -/
structure LoadInvariant (P : Platform) (cfg : BackfillConfig) (source : BackfillSource)
    (t : String × String) (C : ℤ → List Row → Table → Prop) : Prop where
  fresh : C 0 [] []
  insert : ∀ {o : KeyOrder rowId} {c : ℤ} {done batch left : List Row} {tbl : Table},
    o.page (source.rows t.1) c cfg.pageSize = done ++ batch ++ left →
      (∀ row ∈ batch, Insertable P row) → C c done tbl →
        C c (done ++ batch) (tbl ++ batch.map (backfillImage P t.2))
  save : ∀ {o : KeyOrder rowId} {c : ℤ} {tbl : Table}
    (hne : o.page (source.rows t.1) c cfg.pageSize ≠ []),
    C c (o.page (source.rows t.1) c cfg.pageSize) tbl →
      C (rowId ((o.page (source.rows t.1) c cfg.pageSize).getLast hne)) [] tbl

/-- The table has left its initial contents behind for good. -/
def InProgress (t : String × String) (s : State) : Prop :=
  s.saved.lastId t.1 ≠ 0 ∨ s.saved.done t.1 = true ∨ Loading t.1 s.control

/-- A table in progress has the property. -/
def Held (t : String × String) (C : ℤ → List Row → Table → Prop) (s : State) : Prop :=
  InProgress t s → C (s.saved.lastId t.1) (inserted t.1 s.control) (s.tables t.2)

/-- A process that ends here leaves the property of the table behind. -/
def CrashKeeps (t : String × String) (C : ℤ → List Row → Table → Prop) (s : State) : Prop :=
  s.saved.lastId t.1 ≠ 0 → C (s.saved.lastId t.1) (inserted t.1 s.control) (s.tables t.2) →
    C (s.saved.lastId t.1) [] (s.tables t.2)

section Held

variable {P : Platform} {cfg : BackfillConfig} {source : BackfillSource} {t : String × String}
  {C : ℤ → List Row → Table → Prop} {s : State}

/-- A suffix of a page still to insert: the inserted part in front of it. -/
theorem take_append_of_suffix {page left : List Row} (h : left <:+ page) :
    page.take (page.length - left.length) ++ left = page := by
  obtain ⟨done, rfl⟩ := h
  have hlen : (done ++ left).length - left.length = done.length := by
    rw [List.length_append]
    omega
  rw [hlen, List.take_left]

/-- The inserted part after one more batch. -/
theorem take_drop_batch {page left : List Row} (h : left <:+ page) (n : ℕ) :
    page.take (page.length - (left.drop n).length) =
      page.take (page.length - left.length) ++ left.take n := by
  obtain ⟨done, rfl⟩ := h
  have hleft : (done ++ left).length - left.length = done.length := by
    rw [List.length_append]
    omega
  have hdrop : (done ++ left).length - (left.drop n).length = done.length + (left.take n).length := by
    rw [List.length_append, List.length_drop, List.length_take]
    omega
  have hmin : left.take (left.take n).length = left.take n := by
    rw [List.length_take, ← List.take_eq_take_min]
  rw [hleft, hdrop, List.take_left, List.take_length_add_append, hmin]

/-- A step that leaves the checkpoint and the rows of the table alone. -/
theorem Held.frame {s' : State} (h : Held t C s) (hid : s'.saved.lastId t.1 = s.saved.lastId t.1)
    (htable : s'.tables t.2 = s.tables t.2) (hinserted : inserted t.1 s'.control = inserted t.1 s.control)
    (hprogress : InProgress t s' → InProgress t s) : Held t C s' := by
  intro h'
  rw [hid, htable, hinserted]
  exact h (hprogress h')

/-- A place without a paging loop tells nothing about progress. -/
theorem InProgress.of_not_loading {s' : State} (h : InProgress t s') (hnot : ¬ Loading t.1 s'.control)
    (hsaved : s'.saved = s.saved) : InProgress t s := by
  rcases h with hid | hdone | hload
  · exact Or.inl (hsaved ▸ hid)
  · exact Or.inr (Or.inl (hsaved ▸ hdone))
  · exact absurd hload hnot

variable (hC : LoadInvariant P cfg source t C) (ht : t ∈ backfillTables)

include ht in
/-- The target of a load, by its source table. -/
theorem Load.Current.target {saved : Checkpoint} {load : Load} (h : load.Current P source saved) :
    load.pgTable = t.1 ↔ load.sfTable = t.2 :=
  backfillTables_target_inj _ h.mem _ ht

include hC ht in
/-- The TRUNCATE. -/
theorem Held.truncate {load : Load} {cp : Checkpoint} {file : Option Checkpoint} {tables : Store}
    (h : Held t C ⟨.truncating load, cp, file, tables⟩)
    (hcurrent : load.Current P source (loadCheckpoint file)) (hzero : load.lastId = 0) :
    Held t C ⟨.querying load, cp, file, Function.update tables load.sfTable []⟩ := by
  by_cases heq : load.pgTable = t.1
  · intro _
    have hlast : (loadCheckpoint file).lastId t.1 = 0 := by
      rw [← heq, ← hcurrent.lastId, hzero]
    show C ((loadCheckpoint file).lastId t.1) [] (Function.update tables load.sfTable [] t.2)
    rw [hlast, (hcurrent.target ht).mp heq, Function.update_self]
    exact hC.fresh
  · have htarget : t.2 ≠ load.sfTable := fun hsf => heq ((hcurrent.target ht).mpr hsf.symm)
    exact h.frame rfl (Function.update_of_ne htarget _ _) rfl
      fun h' => h'.of_not_loading heq rfl

/-- The rows of a page have the columns of their table. -/
theorem pageColumns_eq {o : KeyOrder rowId} {c : ℤ} {page : List Row} {pgTable : String}
    (hpage : page = o.page (source.rows pgTable) c cfg.pageSize) (hne : page ≠ []) :
    pageColumns P page = sfColumns P (source.columns pgTable) ∧
      ∀ row ∈ page, (backfillRowToSf P row).keys = pageColumns P page := by
  have hlisted : ∀ r ∈ page, (backfillRowToSf P r).keys = sfColumns P (source.columns pgTable) := by
    intro r hr
    rw [keys_backfillRowToSf, source.listed pgTable r (mem_of_mem_page o (hpage ▸ hr)).1]
  have hcolumns : pageColumns P page = sfColumns P (source.columns pgTable) := by
    obtain ⟨first, rest, rfl⟩ := List.exists_cons_of_ne_nil hne
    exact hlisted first List.mem_cons_self
  exact ⟨hcolumns, fun r hr => (hlisted r hr).trans hcolumns.symm⟩

include hC ht in
/-- One INSERT. -/
theorem Held.insertBatch {load : Load} {page left : List Row} {cp : Checkpoint}
    {file : Option Checkpoint} {tables : Store}
    (h : Held t C ⟨.inserting load page left, cp, file, tables⟩)
    (hcurrent : load.Current P source (loadCheckpoint file)) (hne : page ≠ []) (hleft : left <:+ page)
    {o : KeyOrder rowId} (hpage : page = o.page (source.rows load.pgTable) load.lastId cfg.pageSize)
    (sqlCache : Dict ℕ (List String)) {n : ℕ} (hbatchNe : left.take n ≠ [])
    (hok : (batchInsert P load.sfTable (pageColumns P page) load.sqlCache (left.take n)).1.Succeeds P) :
    Held t C ⟨.inserting { load with sqlCache := sqlCache } page (left.drop n), cp, file,
      execute P lastFirstTie
        [(batchInsert P load.sfTable (pageColumns P page) load.sqlCache (left.take n)).1] tables⟩ := by
  by_cases heq : load.pgTable = t.1
  · intro _
    have hheld : C ((loadCheckpoint file).lastId t.1)
        (inserted t.1 (.inserting load page left)) (tables t.2) := h (Or.inr (Or.inr heq))
    have htarget : load.sfTable = t.2 := (hcurrent.target ht).mp heq
    have hlastId : load.lastId = (loadCheckpoint file).lastId t.1 := heq ▸ hcurrent.lastId
    obtain ⟨hcolumns, hrows⟩ := pageColumns_eq (P := P) hpage hne
    have hcache : CachesOnly (pageColumns P page) load.sqlCache := hcolumns ▸ hcurrent.cache
    have hbatch : ∀ row ∈ left.take n, (backfillRowToSf P row).keys = pageColumns P page :=
      fun row hrow => hrows row (hleft.subset (List.mem_of_mem_take hrow))
    rw [inserted, if_pos heq, ← hlastId] at hheld
    show C ((loadCheckpoint file).lastId t.1) (inserted t.1 (.inserting _ page _))
      (Function.update tables load.sfTable _ t.2)
    rw [inserted, if_pos heq, take_drop_batch hleft, htarget, Function.update_self,
      ← htarget, batchInsert_onTable hcache load.sfTable _ hbatch, htarget, ← hlastId]
    have hinsertable := (batchInsert_succeeds_iff hcache load.sfTable _ hbatch hbatchNe).mp hok
    rw [heq] at hpage
    apply hC.insert (o := o) _ hinsertable hheld
    · exact left.drop n
    · rw [List.append_assoc, List.take_append_drop, take_append_of_suffix hleft, hpage]
  · have htarget : t.2 ≠ load.sfTable := fun hsf => heq ((hcurrent.target ht).mpr hsf.symm)
    refine h.frame rfl (Function.update_of_ne htarget _ _) ?_ fun h' => h'.of_not_loading heq rfl
    rw [inserted, inserted, if_neg heq, if_neg heq]

include hC in
/-- The save behind a page. -/
theorem Held.savePage {load : Load} {page : List Row} {cp : Checkpoint} {file : Option Checkpoint}
    {tables : Store} (h : Held t C ⟨.inserting load page [], cp, file, tables⟩)
    (hcurrent : load.Current P source (loadCheckpoint file)) (hne : page ≠ [])
    {o : KeyOrder rowId} (hpage : page = o.page (source.rows load.pgTable) load.lastId cfg.pageSize)
    {cp' : Checkpoint}
    (hcp' : cp' = (loadCheckpoint file).setLastId load.pgTable (pageEnd page load.lastId)) :
    Held t C ⟨.querying { load with lastId := pageEnd page load.lastId }, cp', some cp', tables⟩ := by
  have hsaved : cp'.lastId t.1 =
      if t.1 = load.pgTable then rowId (page.getLast hne) else (loadCheckpoint file).lastId t.1 := by
    rw [hcp', Checkpoint.lastId_setLastId, pageEnd_eq hne]
  by_cases heq : load.pgTable = t.1
  · intro _
    have hheld : C ((loadCheckpoint file).lastId t.1)
        (inserted t.1 (.inserting load page [])) (tables t.2) := h (Or.inr (Or.inr heq))
    have hlastId : load.lastId = (loadCheckpoint file).lastId t.1 := heq ▸ hcurrent.lastId
    rw [inserted, if_pos heq, List.length_nil, Nat.sub_zero, List.take_length, ← hlastId] at hheld
    show C (cp'.lastId t.1) [] (tables t.2)
    rw [hsaved, if_pos heq.symm]
    rw [heq] at hpage
    subst hpage
    exact hC.save hne hheld
  · rw [if_neg (Ne.symm heq)] at hsaved
    refine h.frame hsaved rfl ?_ fun h' => ?_
    · exact (if_neg heq).symm
    · rcases h' with hid | hdone | hload
      · exact Or.inl (show (loadCheckpoint file).lastId t.1 ≠ 0 from hsaved ▸ hid)
      · exact Or.inr (Or.inl (show (loadCheckpoint file).done t.1 = true by rw [hcp'] at hdone; exact hdone))
      · exact absurd hload heq

include hC ht in
/-- **One step of a process.** -/
theorem Held.proceed (hs : Consistent P cfg source s) (h : Held t C s) (o : KeyOrder rowId) :
    Held t C (proceed P cfg source o s) := by
  obtain ⟨control, cp, file, tables⟩ := s
  obtain ⟨hcp, hplaced, -⟩ := hs
  cases control with
  | stopped => exact h.frame rfl rfl rfl fun h' => h'.of_not_loading not_false rfl
  | nextTable rest =>
    cases rest with
    | nil => exact h.frame rfl rfl rfl fun h' => h'.of_not_loading not_false rfl
    | cons t' rest =>
      have hcp : cp = loadCheckpoint file := hcp.resolve_left (by simp)
      subst hcp
      simp only [Backfill.proceed]
      split
      · exact h.frame rfl rfl rfl fun h' => h'.of_not_loading not_false rfl
      · split
        · exact h.frame rfl rfl rfl fun h' => h'.of_not_loading not_false rfl
        · next hnonzero =>
          refine h.frame rfl rfl rfl fun h' => ?_
          rcases h' with hid | hdone | hload
          · exact Or.inl hid
          · exact Or.inr (Or.inl hdone)
          · have heq : t'.1 = t.1 := hload
            exact Or.inl (heq ▸ hnonzero)
  | truncating load => exact h.truncate hC ht hplaced.1 hplaced.2
  | querying load =>
    simp only [Backfill.proceed]
    split
    · exact h
    · refine h.frame rfl rfl ?_ id
      show (if load.pgTable = t.1 then _ else []) = []
      rw [Nat.sub_self, List.take_zero, ite_self]
  | inserting load page left =>
    have hcp : cp = loadCheckpoint file := hcp.resolve_left (by simp)
    subst hcp
    obtain ⟨hcurrent, hne, hleft, o', hpage⟩ := hplaced
    simp only [Backfill.proceed]
    split
    · next hempty =>
      rw [List.isEmpty_iff.mp hempty] at h
      exact h.savePage hC hcurrent hne hpage rfl
    · next hleftNe =>
      split
      · next hok =>
        have hbatchNe : left.take cfg.insertBatch ≠ [] := by
          rw [Ne, List.take_eq_nil_iff, not_or]
          exact ⟨cfg.insertBatch_pos.ne', by simpa using hleftNe⟩
        exact h.insertBatch hC ht hcurrent hne hleft hpage _ hbatchNe hok
      · exact h
  | finishing load =>
    have hcp : cp = loadCheckpoint file := hcp.resolve_left (by simp)
    subst hcp
    have hsave : (loadCheckpoint file).setLastId load.pgTable load.lastId = loadCheckpoint file :=
      Checkpoint.setLastId_self hplaced.1.lastId
    simp only [Backfill.proceed, hsave]
    refine h.frame rfl rfl rfl fun h' => ?_
    rcases h' with hid | hdone | hload
    · exact Or.inl hid
    · have hdone : ((loadCheckpoint file).setDone load.pgTable).done t.1 = true := hdone
      rw [Checkpoint.done_setDone] at hdone
      split at hdone
      · next heq => exact Or.inr (Or.inr heq.symm)
      · exact Or.inr (Or.inl hdone)
    · exact hload.elim
  | completed => exact h

/-- The end of a process. -/
theorem Held.crash (h : Held t C s) (hkeeps : CrashKeeps t C s)
    (hdone : s.saved.done t.1 = true → inserted t.1 s.control = []) : Held t C (crash s) := by
  obtain ⟨control, cp, file, tables⟩ := s
  cases control with
  | completed => exact h
  | _ =>
    intro h'
    rcases h' with hid | hd | hload
    · exact hkeeps hid (h (Or.inl hid))
    · have hheld := h (Or.inr (Or.inl hd))
      rw [hdone hd] at hheld
      exact hheld
    · exact hload.elim

/-- No page of a table marked done is being inserted. -/
theorem Consistent.inserted_of_done (hs : Consistent P cfg source s) (ht : t ∈ backfillTables)
    (hdone : s.saved.done t.1 = true) : inserted t.1 s.control = [] := by
  obtain ⟨control, cp, file, tables⟩ := s
  cases control with
  | inserting load page left =>
    obtain ⟨hcurrent, hne, -, o, hpage⟩ := hs.placed
    by_cases heq : load.pgTable = t.1
    · -- the page has rows beyond the last id, which a table marked done has not
      have hmem : page.getLast hne ∈ o.page (source.rows load.pgTable) load.lastId cfg.pageSize :=
        hpage ▸ List.getLast_mem hne
      have hlast := mem_of_mem_page o hmem
      have hle := hs.done t ht hdone _ (heq ▸ hlast.1)
      have hlastId : load.lastId = (loadCheckpoint file).lastId t.1 := heq ▸ hcurrent.lastId
      have hle : rowId (page.getLast hne) ≤ (loadCheckpoint file).lastId t.1 := hle
      rw [← hlastId] at hle
      exact absurd hlast.2 (not_lt.mpr hle)
    · exact if_neg heq
  | _ => rfl

end Held

/-! ### Histories -/

/-- Every process that ends in the history ends at a state that meets `Q`. -/
def CrashesAt (P : Platform) (cfg : BackfillConfig) (source : BackfillSource) (Q : State → Prop) :
    List Input → State → Prop
  | [], _ => True
  | .crash :: inputs, s => Q s ∧ CrashesAt P cfg source Q inputs (crash s)
  | .proceed o :: inputs, s => CrashesAt P cfg source Q inputs (proceed P cfg source o s)

instance decidableCrashesAt (P : Platform) (cfg : BackfillConfig) (source : BackfillSource)
    (Q : State → Prop) [DecidablePred Q] :
    ∀ (inputs : List Input) (s : State), Decidable (CrashesAt P cfg source Q inputs s)
  | [], _ => isTrue trivial
  | .crash :: inputs, s =>
    haveI := decidableCrashesAt P cfg source Q inputs (crash s)
    inferInstanceAs (Decidable (_ ∧ _))
  | .proceed o :: inputs, s => decidableCrashesAt P cfg source Q inputs (proceed P cfg source o s)

section Histories

variable {P : Platform} {cfg : BackfillConfig} {source : BackfillSource}

theorem CrashesAt.mono {Q Q' : State → Prop} (hQ : ∀ s, Q s → Q' s) {inputs : List Input} {s : State}
    (h : CrashesAt P cfg source Q inputs s) : CrashesAt P cfg source Q' inputs s := by
  induction inputs generalizing s with
  | nil => exact trivial
  | cons i inputs ih =>
    cases i with
    | crash => exact ⟨hQ s h.1, ih h.2⟩
    | proceed o => exact ih h

theorem crashesAt_true (inputs : List Input) (s : State) :
    CrashesAt P cfg source (fun _ => True) inputs s := by
  induction inputs generalizing s with
  | nil => exact trivial
  | cons i inputs ih =>
    cases i with
    | crash => exact ⟨trivial, ih _⟩
    | proceed o => exact ih _

theorem crashesAt_of_notMem {Q : State → Prop} {inputs : List Input} (h : .crash ∉ inputs) (s : State) :
    CrashesAt P cfg source Q inputs s := by
  induction inputs generalizing s with
  | nil => exact trivial
  | cons i inputs ih =>
    cases i with
    | crash => exact absurd List.mem_cons_self h
    | proceed o => exact ih (fun hmem => h (List.mem_cons_of_mem _ hmem)) _

variable (P cfg source) in
theorem consistent_run (inputs : List Input) (tables : Store) :
    Consistent P cfg source (run P cfg source inputs (.initial tables)) :=
  Replay.run_invariant _ (consistent_initial tables) fun i _ _ hs => hs.step i

theorem held_initial (t : String × String) (C : ℤ → List Row → Table → Prop) (tables : Store) :
    Held t C (.initial tables) := by
  rintro (hid | hdone | hload)
  · exact absurd rfl hid
  · cases hdone
  · exact hload.elim

/-- **What a table holds after a history.** -/
theorem held_run {t : String × String} (ht : t ∈ backfillTables) {C : ℤ → List Row → Table → Prop}
    (hC : LoadInvariant P cfg source t C) (inputs : List Input) {s : State}
    (hs : Consistent P cfg source s) (h : Held t C s)
    (hcrash : CrashesAt P cfg source (CrashKeeps t C) inputs s) :
    Held t C (run P cfg source inputs s) := by
  induction inputs generalizing s with
  | nil => exact h
  | cons i inputs ih =>
    cases i with
    | proceed o => exact ih (hs.proceed o) (h.proceed hC ht hs o) hcrash
    | crash => exact ih hs.crash (h.crash hcrash.1 (hs.inserted_of_done ht)) hcrash.2

/-- When `main` has returned, every table is marked done. -/
theorem done_of_completed {inputs : List Input} {tables : Store}
    (h : (run P cfg source inputs (.initial tables)).control = .completed) :
    ∀ t ∈ backfillTables, (run P cfg source inputs (.initial tables)).saved.done t.1 = true := by
  have hplaced := (consistent_run P cfg source inputs tables).placed
  rw [h] at hplaced
  exact hplaced

end Histories

/-- **An INSERT raises only over a row that cannot be inserted.** -/
theorem Consistent.exists_of_raises {s : State} (hs : Consistent P cfg source s)
    (hraises : Raises P cfg s) :
    ∃ load page left, s.control = .inserting load page left ∧
      ∃ row ∈ source.rows load.pgTable, ¬ Insertable P row := by
  obtain ⟨control, cp, file, tables⟩ := s
  cases control with
  | inserting load page left =>
    refine ⟨load, page, left, rfl, ?_⟩
    obtain ⟨hcurrent, hne, hleft, o, hpage⟩ := hs.placed
    obtain ⟨hleftNe, hfails⟩ := hraises
    obtain ⟨hcolumns, hrows⟩ := pageColumns_eq (P := P) hpage hne
    have hcache : CachesOnly (pageColumns P page) load.sqlCache := hcolumns ▸ hcurrent.cache
    have hbatchNe : left.take cfg.insertBatch ≠ [] := by
      rw [Ne, List.take_eq_nil_iff, not_or]
      exact ⟨cfg.insertBatch_pos.ne', hleftNe⟩
    have hsub : ∀ row ∈ left.take cfg.insertBatch, row ∈ page :=
      fun row hrow => hleft.subset (List.mem_of_mem_take hrow)
    rw [batchInsert_succeeds_iff hcache load.sfTable _ (fun row hrow => hrows row (hsub row hrow))
      hbatchNe] at hfails
    push Not at hfails
    obtain ⟨row, hrow, hnot⟩ := hfails
    have hmem : row ∈ o.page (source.rows load.pgTable) load.lastId cfg.pageSize :=
      hpage ▸ hsub row hrow
    exact ⟨row, (mem_of_mem_page o hmem).1, hnot⟩
  | _ => exact hraises.elim

/-! ### Two properties of a loaded table -/

/-- The table holds the rows read up to the checkpoint, page by page, and what has been inserted of the
current page; the INSERTs of all of them have been executed. -/
def Exact (P : Platform) (cfg : BackfillConfig) (source : BackfillSource) (t : String × String)
    (c : ℤ) (done : List Row) (tbl : Table) : Prop :=
  ∃ l, Read rowId cfg.pageSize (source.rows t.1) 0 c l ∧
    tbl = (l ++ done).map (backfillImage P t.2) ∧
    (done = [] ∨ ∃ o : KeyOrder rowId, done <+: o.page (source.rows t.1) c cfg.pageSize) ∧
    ∀ row ∈ l ++ done, Insertable P row

theorem loadInvariant_exact (P : Platform) (cfg : BackfillConfig) (source : BackfillSource)
    (t : String × String) : LoadInvariant P cfg source t (Exact P cfg source t) where
  fresh := ⟨[], .start, rfl, Or.inl rfl, nofun⟩
  insert := by
    rintro o c done batch left tbl hpage hinsertable ⟨l, hread, rfl, -, hold⟩
    refine ⟨l, hread, ?_, Or.inr ⟨o, left, hpage.symm⟩, ?_⟩
    · rw [← List.append_assoc, @List.map_append _ _ _ (l ++ done)]
    · rw [← List.append_assoc]
      intro row hrow
      exact (List.mem_append.mp hrow).elim (hold row) (hinsertable row)
  save := by
    rintro o c tbl hne ⟨l, hread, rfl, -, hold⟩
    exact ⟨l ++ _, hread.next o hne, by rw [List.append_nil], Or.inl rfl, by rwa [List.append_nil]⟩

/-- The table holds rows of the source only, among them every row up to the checkpoint and what has been
inserted of the current page. -/
def Covers (P : Platform) (source : BackfillSource) (t : String × String) (c : ℤ) (done : List Row)
    (tbl : Table) : Prop :=
  ∃ l, l ⊆ source.rows t.1 ∧ (∀ r ∈ source.rows t.1, rowId r ≤ c → r ∈ l) ∧ done ⊆ l ∧
    tbl = l.map (backfillImage P t.2)

theorem loadInvariant_covers (P : Platform) (cfg : BackfillConfig) {source : BackfillSource}
    {t : String × String} (hids : ((source.rows t.1).map rowId).Nodup)
    (hpos : ∀ r ∈ source.rows t.1, 0 < rowId r) :
    LoadInvariant P cfg source t (Covers P source t) where
  fresh := ⟨[], List.nil_subset _, fun r hr hle => absurd (hpos r hr) (not_lt.mpr hle),
    List.nil_subset _, rfl⟩
  insert := by
    rintro o c done batch left tbl hpage - ⟨l, hsub, hcover, hdone, rfl⟩
    have hbatch : batch ⊆ source.rows t.1 := by
      intro r hr
      have hmem : r ∈ o.page (source.rows t.1) c cfg.pageSize := by
        rw [hpage]
        exact List.mem_append_left _ (List.mem_append_right _ hr)
      exact (mem_of_mem_page o hmem).1
    refine ⟨l ++ batch, List.append_subset.mpr ⟨hsub, hbatch⟩,
      fun r hr hle => List.mem_append_left _ (hcover r hr hle), ?_, (List.map_append).symm⟩
    exact List.append_subset.mpr
      ⟨List.Subset.trans hdone (List.subset_append_left _ _), List.subset_append_right _ _⟩
  save := by
    rintro o c tbl hne ⟨l, hsub, hcover, hdone, rfl⟩
    refine ⟨l, hsub, fun r hr hle => ?_, List.nil_subset _, rfl⟩
    rcases le_or_gt (rowId r) c with hc | hc
    · exact hcover r hr hc
    · exact hdone (mem_page_of_le o hne hids hr hc hle)

end Backfill

end PgSnowflakeCdc
