import PgSnowflakeCdc.Scripts.BackfillRuns
import PgSnowflakeCdc.Scripts.LiveReconcile
import PgSnowflakeCdc.Scripts.ReconcileRuns

/-!
# Backfill, slot, service, reconciliation

The documented way to bring up a table: `backfill.py` loads it page by page while it changes, some time
later the slot is created, the service applies the changes from there on one by one, and at last
`reconcile.py` writes the rows updated since the backfill started.

* `Bootstrap.step`, `Bootstrap.run` — the backfill of a table that changes; `pages` — the rows its page
  queries return;
* `loaded_run` — **what the backfill leaves behind**: the rows of its pages, among them every row that is
  older than the backfill and still there;
* `Loaded.completed_iff` — **the backfill returns exactly when every row it reads can be inserted**;
* `reconciled_eq` — the table after `reconcile.py`, which returns exactly when each selected row can be
  merged;
* `Lingers` — a row of the key was read or upserted, and no delete of the key has been applied since;
* `lingers_iff_lost` — which keys linger without being in the source: **those whose row went away between
  its page and the slot**;
* `bootstrap_reaches_source_iff` — **the procedure ends with the source exactly when no key lingers that
  the source does not have**, and the scripts store rows as replication does.
-/

namespace PgSnowflakeCdc

open OrderedDict RowNumbering KeyedRows Paging

/-- Ids are positive and identify the rows. -/
structure PgTable.PositiveIds {P : Platform} {sfTable : String} {columns : List String}
    (t : PgTable P sfTable columns) : Prop where
  positive : ∀ r ∈ t.rows, 0 < rowId r.driver
  distinct : ((t.rows.map PgRow.driver).map rowId).Nodup

namespace Bootstrap

/-! ### The backfill of a table that changes -/

/-- The source table, and the script with the tables it writes. -/
structure State (P : Platform) (sfTable : String) (columns : List String) where
  source : PgTable P sfTable columns
  script : Backfill.State

/-- A row operation, which no slot records yet; or the script goes on. -/
inductive Input (P : Platform) (pgTable sfTable : String) (columns : List String) where
  | op (stamp : Stamp pgTable) (op : PgOp P sfTable columns) : Input P pgTable sfTable columns
  | proceed (o : KeyOrder rowId) : Input P pgTable sfTable columns

section Machine

variable {P : Platform} {pgTable sfTable : String} {columns : List String}

/-- What the queries of the script see. -/
def rowsNow (pgTable : String) (t : PgTable P sfTable columns) : BackfillSource where
  rows name := if name = pgTable then t.rows.map PgRow.driver else []
  columns _ := columns
  listed name row hrow := by
    split at hrow
    · obtain ⟨r, -, rfl⟩ := List.mem_map.mp hrow
      exact r.driver_listed
    · exact absurd hrow List.not_mem_nil

/-- `_backfill_table` at its start, with `start_id` 0. -/
def firstLoad (pgTable sfTable : String) : Backfill.Load := ⟨pgTable, sfTable, [], 0, ∅⟩

def State.start (pgTable : String) (source : PgTable P sfTable columns) (tables : Store) :
    State P sfTable columns :=
  ⟨source, .truncating (firstLoad pgTable sfTable), loadCheckpoint none, none, tables⟩

/-- One step. -/
def step (cfg : BackfillConfig) (s : State P sfTable columns) :
    Input P pgTable sfTable columns → State P sfTable columns
  | .op stamp op => { s with source := (s.source.apply stamp op).1 }
  | .proceed o => { s with script := Backfill.proceed P cfg (rowsNow pgTable s.source) o s.script }

/-- The state after some inputs. -/
def run (cfg : BackfillConfig) (inputs : List (Input P pgTable sfTable columns))
    (s : State P sfTable columns) : State P sfTable columns :=
  Replay.run (fun i s => step cfg s i) inputs s

/-- The rows a step reads: the next page, when the script is in front of its query. -/
def State.page (cfg : BackfillConfig) (s : State P sfTable columns) :
    Input P pgTable sfTable columns → List Row
  | .op _ _ => []
  | .proceed o =>
    match s.script.control with
    | .querying load => o.page ((rowsNow pgTable s.source).rows load.pgTable) load.lastId cfg.pageSize
    | _ => []

/-- The rows a run reads, page after page. -/
def pages (cfg : BackfillConfig) :
    List (Input P pgTable sfTable columns) → State P sfTable columns → List Row
  | [], _ => []
  | i :: inputs, s => s.page cfg i ++ pages cfg inputs (step cfg s i)

end Machine

/-! ### What the backfill leaves behind -/

section Loading

variable {P : Platform} {pgTable sfTable : String} {columns : List String} {cfg : BackfillConfig}
  {start : ℤ} {l : List Row} {s : State P sfTable columns}

/-- The local variables of the paging loop. -/
structure Running (P : Platform) (pgTable sfTable : String) (columns : List String)
    (load : Backfill.Load) : Prop where
  pgTable : load.pgTable = pgTable
  sfTable : load.sfTable = sfTable
  rest : load.rest = []
  cache : CachesOnly (sfColumns P columns) load.sqlCache

/-- Where the script is, when the rows `l` have been read: all of them are in the table but those of the
page that are still to be inserted. -/
def Place (P : Platform) (pgTable sfTable : String) (columns : List String) (l : List Row)
    (tbl : Table) : Backfill.Control → Prop
  | .stopped => False
  | .truncating load => load = firstLoad pgTable sfTable
  | .querying load => Running P pgTable sfTable columns load ∧ tbl = l.map (backfillImage P sfTable)
  | .inserting load page left => Running P pgTable sfTable columns load ∧ page ≠ [] ∧ left <:+ page ∧
    (∀ row ∈ page, row.keys = columns) ∧
    tbl ++ left.map (backfillImage P sfTable) = l.map (backfillImage P sfTable)
  | .finishing load => load.rest = [] ∧ tbl = l.map (backfillImage P sfTable)
  | .nextTable rest => rest = [] ∧ tbl = l.map (backfillImage P sfTable)
  | .completed => tbl = l.map (backfillImage P sfTable)

/-- The rows of the current page that are still to be inserted. -/
def leftRows : Backfill.Control → List Row
  | .inserting _ _ left => left
  | _ => []

/-- The pages have passed the id. -/
def Passed (id : ℤ) : Backfill.Control → Prop
  | .stopped => False
  | .truncating _ => False
  | .querying load => id ≤ load.lastId
  | .inserting load page _ => id ≤ Backfill.pageEnd page load.lastId
  | .finishing _ => True
  | .nextTable _ => True
  | .completed => True

/-- The rows `l` have been read, in the order of their ids, since the clock showed `start`; among them is
every older row that is still there, up to the id that the pages have passed.  An INSERT of each of them
has been executed or is still to come. -/
structure Loaded (pgTable : String) (start : ℤ) (l : List Row) (s : State P sfTable columns) : Prop where
  clock : start ≤ s.source.clock
  place : Place P pgTable sfTable columns l (s.script.tables sfTable) s.script.control
  rows : ∀ x ∈ l, ∃ r : PgRow P sfTable columns, r.driver = x
  positive : ∀ x ∈ l, 0 < rowId x
  sorted : l.Pairwise fun a b => rowId a < rowId b
  passed : ∀ x ∈ l, Passed (rowId x) s.script.control
  covers : ∀ r ∈ s.source.rows, r.updatedAt < start → Passed (rowId r.driver) s.script.control →
    r.driver ∈ l
  left : leftRows s.script.control ⊆ l
  insertable : ∀ x ∈ l, x ∈ leftRows s.script.control ∨ Insertable P x

theorem loaded_start (source : PgTable P sfTable columns) (tables : Store) :
    Loaded pgTable source.clock [] (.start pgTable source tables) where
  clock := le_rfl
  place := rfl
  rows := nofun
  positive := nofun
  sorted := List.Pairwise.nil
  passed := nofun
  covers _ _ _ h := h.elim
  left := List.nil_subset _
  insertable := nofun

/-- A row operation. -/
theorem Loaded.op (h : Loaded pgTable start l s) (stamp : Stamp pgTable) (op : PgOp P sfTable columns) :
    Loaded pgTable start l (step cfg s (.op stamp op)) where
  clock := h.clock.trans PgTable.clock_le_apply
  place := h.place
  rows := h.rows
  positive := h.positive
  sorted := h.sorted
  passed := h.passed
  covers r hr hold hpassed :=
    h.covers r (PgTable.untouched_of_apply hr (hold.trans_le h.clock)).1 hold hpassed
  left := h.left
  insertable := h.insertable

/-- The table is emptied. -/
theorem Loaded.truncate {load : Backfill.Load} {cp : Checkpoint} {file : Option Checkpoint}
    {tables : Store} {source : PgTable P sfTable columns} (hids : source.PositiveIds)
    (h : Loaded pgTable start l ⟨source, .truncating load, cp, file, tables⟩) :
    Loaded pgTable start l
      ⟨source, .querying load, cp, file, Function.update tables load.sfTable []⟩ := by
  have hload : load = firstLoad pgTable sfTable := h.place
  have hnil : l = [] := List.eq_nil_iff_forall_not_mem.mpr fun x hx => (h.passed x hx).elim
  subst hload hnil
  refine ⟨h.clock, ⟨⟨rfl, rfl, rfl, nofun⟩, ?_⟩, nofun, nofun, List.Pairwise.nil, nofun, ?_,
    List.nil_subset _, nofun⟩
  · exact Function.update_self _ _ _
  · intro r hr _ hpassed
    exact absurd (hids.positive r hr) (not_lt.mpr hpassed)

/-- A page is read. -/
theorem Loaded.query {load : Backfill.Load} {cp : Checkpoint} {file : Option Checkpoint}
    {tables : Store} {source : PgTable P sfTable columns} (hids : source.PositiveIds)
    (o : KeyOrder rowId)
    (h : Loaded pgTable start l ⟨source, .querying load, cp, file, tables⟩)
    {page : List Row} (hpage : o.page (source.rows.map PgRow.driver) load.lastId cfg.pageSize = page) :
    Loaded pgTable start (l ++ page)
      ⟨source, if page.isEmpty then .finishing load else .inserting load page page, cp, file,
        tables⟩ := by
  obtain ⟨hrunning, htable⟩ := h.place
  by_cases hne : page = []
  · subst hne
    rw [List.append_nil]
    refine ⟨h.clock, ⟨hrunning.rest, htable⟩, h.rows, h.positive, h.sorted, fun _ _ => trivial, ?_,
      List.nil_subset _, h.insertable⟩
    intro r hr hold _
    have hend := (page_eq_nil_iff o cfg.pageSize_pos).mp hpage
    exact h.covers r hr hold (hend r.driver (List.mem_map_of_mem hr))
  · rw [if_neg (by simpa using hne)]
    subst hpage
    have hsource : ∀ x ∈ o.page (source.rows.map PgRow.driver) load.lastId cfg.pageSize,
        (∃ r ∈ source.rows, r.driver = x) ∧ load.lastId < rowId x := by
      intro x hx
      obtain ⟨hmem, hlt⟩ := mem_of_mem_page o hx
      exact ⟨List.mem_map.mp hmem, hlt⟩
    have hend := Backfill.pageEnd_eq hne load.lastId
    refine ⟨h.clock, ⟨hrunning, hne, List.suffix_refl _, ?_, ?_⟩, ?_, ?_, ?_, ?_, ?_,
      List.subset_append_right _ _, ?_⟩
    · intro x hx
      obtain ⟨⟨r, -, rfl⟩, -⟩ := hsource x hx
      exact r.driver_listed
    · rw [List.map_append]
      exact congrArg (· ++ _) htable
    · intro x hx
      rcases List.mem_append.mp hx with hx | hx
      · exact h.rows x hx
      · obtain ⟨⟨r, -, hr⟩, -⟩ := hsource x hx
        exact ⟨r, hr⟩
    · intro x hx
      rcases List.mem_append.mp hx with hx | hx
      · exact h.positive x hx
      · obtain ⟨⟨r, hr, rfl⟩, -⟩ := hsource x hx
        exact hids.positive r hr
    · refine List.pairwise_append.mpr ⟨h.sorted, strictSorted_page o hids.distinct, ?_⟩
      exact fun x hx x' hx' => (h.passed x hx).trans_lt (hsource x' hx').2
    · intro x hx
      show rowId x ≤ Backfill.pageEnd _ load.lastId
      rw [hend]
      rcases List.mem_append.mp hx with hx | hx
      · exact (h.passed x hx).trans (last_lt_getLast o hne).le
      · exact key_le_getLast o hne hx
    · intro r hr hold hpassed
      have hpassed : rowId r.driver ≤ Backfill.pageEnd _ load.lastId := hpassed
      rw [hend] at hpassed
      rw [List.mem_append]
      rcases le_or_gt (rowId r.driver) load.lastId with hle | hgt
      · exact Or.inl (h.covers r hr hold hle)
      · exact Or.inr (mem_page_of_le o hne hids.distinct (List.mem_map_of_mem hr) hgt hpassed)
    · intro x hx
      rcases List.mem_append.mp hx with hx | hx
      · exact Or.inr ((h.insertable x hx).resolve_left List.not_mem_nil)
      · exact Or.inl hx

/-- The columns of a page are those of the table. -/
theorem pageColumns_eq {page : List Row} (hne : page ≠ []) (hlisted : ∀ row ∈ page, row.keys = columns) :
    pageColumns P page = sfColumns P columns := by
  obtain ⟨first, rest, rfl⟩ := List.exists_cons_of_ne_nil hne
  rw [← hlisted first List.mem_cons_self]
  exact keys_backfillRowToSf P first

/-- When the next INSERT is executed. -/
theorem Loaded.insert_succeeds_iff {load : Backfill.Load} {page left : List Row} {cp : Checkpoint}
    {file : Option Checkpoint} {tables : Store} {source : PgTable P sfTable columns}
    (h : Loaded pgTable start l ⟨source, .inserting load page left, cp, file, tables⟩) {n : ℕ}
    (hbatchNe : left.take n ≠ []) :
    (batchInsert P load.sfTable (pageColumns P page) load.sqlCache (left.take n)).1.Succeeds P ↔
      ∀ row ∈ left.take n, Insertable P row := by
  obtain ⟨hrunning, hne, hleft, hlisted, -⟩ := h.place
  rw [pageColumns_eq hne hlisted]
  refine batchInsert_succeeds_iff hrunning.cache load.sfTable _ (fun row hrow => ?_) hbatchNe
  rw [keys_backfillRowToSf, hlisted row (hleft.subset (List.mem_of_mem_take hrow))]

/-- Some rows of the page are inserted. -/
theorem Loaded.insertBatch {load : Backfill.Load} {page left : List Row} {cp : Checkpoint}
    {file : Option Checkpoint} {tables : Store} {source : PgTable P sfTable columns}
    (h : Loaded pgTable start l ⟨source, .inserting load page left, cp, file, tables⟩) {n : ℕ}
    (hbatchNe : left.take n ≠ [])
    (hok : (batchInsert P load.sfTable (pageColumns P page) load.sqlCache (left.take n)).1.Succeeds P) :
    Loaded pgTable start l
      ⟨source,
        .inserting { load with sqlCache :=
          (batchInsert P load.sfTable (pageColumns P page) load.sqlCache (left.take n)).2 } page
          (left.drop n), cp, file,
        execute P lastFirstTie
          [(batchInsert P load.sfTable (pageColumns P page) load.sqlCache (left.take n)).1] tables⟩ := by
  have hinserted := (h.insert_succeeds_iff hbatchNe).mp hok
  obtain ⟨hrunning, hne, hleft, hlisted, htable⟩ := h.place
  have hbatch : ∀ row ∈ left.take n, (backfillRowToSf P row).keys = sfColumns P columns := fun row hrow => by
    rw [keys_backfillRowToSf, hlisted row (hleft.subset (List.mem_of_mem_take hrow))]
  rw [pageColumns_eq hne hlisted]
  refine ⟨h.clock, ⟨⟨hrunning.pgTable, hrunning.sfTable, hrunning.rest, ?_⟩, hne,
    (List.drop_suffix _ _).trans hleft, hlisted, ?_⟩, h.rows, h.positive, h.sorted, h.passed, h.covers,
    fun x hx => h.left (List.mem_of_mem_drop hx), fun x hx => ?_⟩
  · exact batchInsert_cache (P := P) hrunning.cache load.sfTable _
  · show Function.update tables load.sfTable _ sfTable ++ _ = _
    rw [hrunning.sfTable, Function.update_self, batchInsert_onTable hrunning.cache sfTable _ hbatch,
      List.append_assoc, ← List.map_append, List.take_append_drop]
    exact htable
  · rcases h.insertable x hx with hx | hx
    · have hx : x ∈ left := hx
      rw [← List.take_append_drop n left, List.mem_append] at hx
      exact hx.symm.imp_right (hinserted x)
    · exact Or.inr hx

/-- **The script goes on.** -/
theorem Loaded.proceed (hids : s.source.PositiveIds) (h : Loaded pgTable start l s)
    (o : KeyOrder rowId) :
    Loaded pgTable start (l ++ s.page cfg (.proceed o : Input P pgTable sfTable columns))
      (step cfg s (.proceed o : Input P pgTable sfTable columns)) := by
  obtain ⟨source, control, cp, file, tables⟩ := s
  cases control with
  | querying load =>
    have hrows : (rowsNow pgTable source).rows load.pgTable = source.rows.map PgRow.driver :=
      if_pos h.place.1.pgTable
    have hpage : o.page (source.rows.map PgRow.driver) load.lastId cfg.pageSize =
        o.page ((rowsNow pgTable source).rows load.pgTable) load.lastId cfg.pageSize := by
      rw [hrows]
    exact h.query hids o hpage
  | stopped => exact h.place.elim
  | truncating load =>
    rw [State.page, List.append_nil]
    exact h.truncate hids
  | inserting load page left =>
    rw [State.page, List.append_nil]
    rw [step, Backfill.proceed]
    dsimp only
    split
    · next hleft =>
      obtain ⟨hrunning, -, -, -, htable⟩ := h.place
      rw [List.isEmpty_iff.mp hleft, List.map_nil, List.append_nil] at htable
      have hempty : left = [] := List.isEmpty_iff.mp hleft
      subst hempty
      exact ⟨h.clock, ⟨⟨hrunning.pgTable, hrunning.sfTable, hrunning.rest, hrunning.cache⟩, htable⟩,
        h.rows, h.positive, h.sorted, h.passed, h.covers, h.left, h.insertable⟩
    · next hleft =>
      split
      · next hok =>
        have hbatchNe : left.take cfg.insertBatch ≠ [] := by
          rw [Ne, List.take_eq_nil_iff, not_or]
          exact ⟨cfg.insertBatch_pos.ne', by simpa using hleft⟩
        exact h.insertBatch hbatchNe hok
      · exact h
  | finishing load =>
    rw [State.page, List.append_nil]
    exact ⟨h.clock, h.place, h.rows, h.positive, h.sorted, h.passed, h.covers, h.left, h.insertable⟩
  | nextTable rest =>
    rw [State.page, List.append_nil]
    obtain ⟨hrest, htable⟩ := h.place
    subst hrest
    exact ⟨h.clock, htable, h.rows, h.positive, h.sorted, h.passed, h.covers, h.left, h.insertable⟩
  | completed =>
    rw [State.page, List.append_nil]
    exact h

/-- **What a run of the backfill has read and written**, however the table changes meanwhile. -/
theorem loaded_run {inputs : List (Input P pgTable sfTable columns)}
    (hids : Replay.Along (fun i s => step cfg s i) (fun s _ => s.source.PositiveIds) inputs s)
    (h : Loaded pgTable start l s) :
    Loaded pgTable start (l ++ pages cfg inputs s) (run cfg inputs s) := by
  induction inputs generalizing s l with
  | nil =>
    rw [pages, List.append_nil]
    exact h
  | cons i inputs ih =>
    rw [pages, ← List.append_assoc]
    apply ih hids.2
    cases i with
    | op stamp op =>
      rw [State.page, List.append_nil]
      exact h.op stamp op
    | proceed o => exact h.proceed hids.1 o

/-- **A backfill that has come to its end has returned exactly when every row that it has read can be
inserted.** -/
theorem Loaded.completed_iff (h : Loaded pgTable start l s) (hends : Backfill.Ends P cfg s.script) :
    s.script.control = .completed ↔ ∀ x ∈ l, Insertable P x := by
  constructor
  · intro hdone x hx
    refine (h.insertable x hx).resolve_left fun hleft => ?_
    rw [hdone] at hleft
    exact List.not_mem_nil hleft
  · intro hinsertable
    refine hends.resolve_right fun hraises => ?_
    obtain ⟨source, control, cp, file, tables⟩ := s
    cases control with
    | inserting load page left =>
      obtain ⟨hleft, hfails⟩ := hraises
      have hbatchNe : left.take cfg.insertBatch ≠ [] := by
        rw [Ne, List.take_eq_nil_iff, not_or]
        exact ⟨cfg.insertBatch_pos.ne', hleft⟩
      exact hfails ((h.insert_succeeds_iff hbatchNe).mpr fun row hrow =>
        hinsertable row (h.left (List.mem_of_mem_take hrow)))
    | _ => exact hraises.elim

end Loading

/-! ### Ids and keys -/

section Ids

variable {P : Platform} {pgTable sfTable sfHistory : String} {columns : List String}

/-- The key of every mapped table contains the id. -/
theorem id_mem_pkOf (hmap : tableMap.get? pgTable = some (sfTable, sfHistory)) :
    "ID" ∈ pkOf sfTable := by
  have hmem : (pgTable, (sfTable, sfHistory)) ∈ tableMap.entries := Dict.get?_eq_some_iff.mp hmap
  have hall : ∀ p ∈ tableMap.entries, "ID" ∈ pkOf p.2.1 := by decide
  exact hall _ hmem

/-- A positive id is a value of the column. -/
theorem get?_id_of_pos {row : Row} (h : 0 < rowId row) : row.get? "id" = some (.int (rowId row)) := by
  rw [rowId] at h ⊢
  split at h
  · next i hi =>
    rw [hi]
  · exact absurd h (lt_irrefl 0)

/-- What a table holds for a positive id, when no other column is stored in `ID`. -/
theorem imageRow_id {row : Row} (honly : ∀ n ∈ row.keys, pgColToSf P n = "ID" → n = "id")
    (h : 0 < rowId row) :
    imageRow P sfTable row "ID" = P.sqlValue sfTable "ID" (.int (rowId row)) := by
  have hname : pgColToSf P "id" = "ID" := by
    rw [pgColToSf_ascii P (by simp [splitCamel])]
    decide
  have hid := get?_id_of_pos h
  have hcell : (rowToSf P row).get? "ID" = some (.int (rowId row)) := by
    rw [rowToSf, Dict.get?_ofPairs]
    cases hlast : ((row.entries.map fun p => (pgColToSf P p.1, convertValue p.1 p.2)).filter
        fun p => p.1 = "ID").getLast? with
    | none =>
      have hmem := List.mem_map_of_mem (f := fun p => (pgColToSf P p.1, convertValue p.1 p.2))
        (Dict.get?_eq_some_iff.mp hid)
      have hnil := List.getLast?_eq_none_iff.mp hlast
      exact absurd (List.mem_filter.mpr ⟨hmem, decide_eq_true hname⟩) (hnil ▸ List.not_mem_nil)
    | some q =>
      obtain ⟨hq, hkey⟩ := List.mem_filter.mp (List.mem_of_getLast? hlast)
      obtain ⟨p, hp, rfl⟩ := List.mem_map.mp hq
      obtain ⟨n, v⟩ := p
      have hn : n = "id" := honly n (List.mem_map_of_mem hp) (of_decide_eq_true hkey)
      subst hn
      rw [Dict.get?_eq_some_iff.mpr hp, Option.some.injEq] at hid
      rw [hid]
      rfl
  rw [imageRow, cell, hcell, Option.getD_some, boundValue, jsonbSfCols_eq, if_neg (by decide)]

/-- **The key determines the id**, as the id is one of its columns. -/
theorem rowId_eq_of_rowKey (hmap : tableMap.get? pgTable = some (sfTable, sfHistory))
    (hstored : Function.Injective fun i : ℤ => P.sqlValue sfTable "ID" (.int i))
    (honly : ∀ n ∈ columns, pgColToSf P n = "ID" → n = "id") {row row' : Row} (hrow : row.keys = columns)
    (hrow' : row'.keys = columns) (hpos : 0 < rowId row) (hpos' : 0 < rowId row')
    (hkey : rowKey P sfTable row = rowKey P sfTable row') : rowId row = rowId row' := by
  have hid := List.map_inj_left.mp hkey "ID" (id_mem_pkOf hmap)
  rw [imageRow_id (hrow.symm ▸ honly) hpos, imageRow_id (hrow'.symm ▸ honly) hpos'] at hid
  exact hstored hid

end Ids

/-! ### One row for each key -/

section Neat

variable {P : Platform} {pgTable sfTable : String} {columns : List String} {rs : List SfRow}

/-- At most one row, and nothing in it outside the columns of the table. -/
structure Neat (P : Platform) (columns : List String) (rs : List SfRow) : Prop where
  length : rs.length ≤ 1
  blank : ∀ x ∈ rs, ∀ c, (∀ n ∈ columns, pgColToSf P n ≠ c) → x c = .none

/-- A row of the table that is assigned is all there is afterwards. -/
theorem Neat.act_assign (h : Neat P columns rs) {row : Row} (hrow : row.keys = columns) :
    (RowOp.assign (assignment P sfTable row)).act .none rs = [imageRow P sfTable row] := by
  have hblank : ∀ x ∈ seed PyVal.none rs, ∀ c, c ∉ (rowToSf P row).keys → x c = .none := by
    intro x hx c hc
    rw [mem_keys_rowToSf, hrow] at hc
    rw [seed] at hx
    split at hx
    · rw [List.mem_singleton.mp hx]
    · exact h.blank x hx c fun n hn hname => hc ⟨n, hn, hname⟩
  have hseed : ∃ x, seed PyVal.none rs = [x] := by
    cases rs with
    | nil => exact ⟨_, rfl⟩
    | cons x rest =>
      have hrest : rest = [] := List.length_eq_zero_iff.mp (by simpa using h.length)
      rw [hrest]
      exact ⟨x, rfl⟩
  obtain ⟨x, hx⟩ := hseed
  rw [RowOp.act, hx, List.map_singleton,
    overlay_assignment (hblank x (hx ▸ List.mem_singleton_self x))]

/-- A change keeps a key neat. -/
theorem Neat.change (h : Neat P columns rs) {e : ChangeEvent}
    (he : e.OfTable P pgTable sfTable columns) (k : List PyVal) :
    Neat P columns ((changeOp P sfTable k e).act .none rs) := by
  obtain ⟨row, himage, hrow, -⟩ := he.image
  rw [changeOp]
  split
  · cases hup : e.isUpsert with
    | true =>
      rw [ownOp_of_upsert himage hup, h.act_assign hrow]
      refine ⟨le_rfl, fun x hx c hc => ?_⟩
      rw [List.mem_singleton.mp hx]
      apply imageRow_of_notMem
      rw [mem_keys_rowToSf, hrow]
      rintro ⟨n, hn, hname⟩
      exact hc n hn hname
    | false =>
      rw [ownOp_of_delete himage hup]
      exact ⟨Nat.zero_le 1, by simp [RowOp.act]⟩
  · exact h

/-- An image of the backfill has nothing outside the columns of its row. -/
theorem backfillImage_blank {row : Row} (hrow : row.keys = columns) {c : String}
    (hc : ∀ n ∈ columns, pgColToSf P n ≠ c) : backfillImage P sfTable row c = .none := by
  have hnone : (backfillRowToSf P row).get? c = none := by
    rw [Dict.get?_eq_none_iff, backfillRowToSf, Dict.mem_keys_ofPairs, List.map_map]
    intro hmem
    obtain ⟨p, hp, hname⟩ := List.mem_map.mp hmem
    exact hc p.1 (hrow ▸ List.mem_map_of_mem hp) hname
  rw [backfillImage, cell, hnone, Option.getD_none, boundValue_null]

end Neat

/-! ### The table that is handed over -/

section Handover

variable {P : Platform} {pgTable sfTable sfHistory : String} {columns : List String} {start : ℤ}
  {l : List Row} {s : State P sfTable columns} (h : Loaded pgTable start l s)

include h

/-- The scripts and the service agree about the key of a row that was read. -/
theorem Loaded.keyOf_image {x : Row} (hx : x ∈ l) :
    keyOf (pkOf sfTable) (backfillImage P sfTable x) = rowKey P sfTable x := by
  obtain ⟨r, rfl⟩ := h.rows x hx
  exact r.backfill_key.trans r.driver_key.symm

/-- **No key is loaded twice.** -/
theorem Loaded.uniqueKeys (hmap : tableMap.get? pgTable = some (sfTable, sfHistory))
    (hstored : Function.Injective fun i : ℤ => P.sqlValue sfTable "ID" (.int i))
    (honly : ∀ n ∈ columns, pgColToSf P n = "ID" → n = "id") :
    UniqueKeys (keyOf (pkOf sfTable)) (l.map (backfillImage P sfTable)) := by
  have hlisted : ∀ x ∈ l, x.keys = columns := by
    intro x hx
    obtain ⟨r, rfl⟩ := h.rows x hx
    exact r.driver_listed
  have hkeys : (l.map (backfillImage P sfTable)).map (keyOf (pkOf sfTable)) =
      l.map (rowKey P sfTable) := by
    rw [List.map_map]
    exact List.map_congr_left fun x hx => h.keyOf_image hx
  rw [UniqueKeys, hkeys]
  refine List.pairwise_map.mpr (h.sorted.imp_of_mem fun {x x'} hx hx' hlt hkey => ?_)
  exact hlt.ne (rowId_eq_of_rowKey hmap hstored honly (hlisted x hx) (hlisted x' hx')
    (h.positive x hx) (h.positive x' hx') hkey)

/-- The loaded rows of a key. -/
theorem Loaded.rowsAt_ne_nil_iff (k : List PyVal) :
    rowsAt (keyOf (pkOf sfTable)) k (l.map (backfillImage P sfTable)) ≠ [] ↔
      ∃ x ∈ l, rowKey P sfTable x = k := by
  constructor
  · intro hne
    obtain ⟨y, hy⟩ := List.exists_mem_of_ne_nil _ hne
    obtain ⟨hmem, hkey⟩ := (mem_rowsAt _).mp hy
    obtain ⟨x, hx, rfl⟩ := List.mem_map.mp hmem
    exact ⟨x, hx, (h.keyOf_image hx).symm.trans hkey⟩
  · rintro ⟨x, hx, hkey⟩
    exact List.ne_nil_of_mem ((mem_rowsAt _).mpr ⟨List.mem_map_of_mem hx, (h.keyOf_image hx).trans hkey⟩)

/-- Every key is neat. -/
theorem Loaded.neat (hunique : UniqueKeys (keyOf (pkOf sfTable)) (l.map (backfillImage P sfTable)))
    (k : List PyVal) :
    Neat P columns (rowsAt (keyOf (pkOf sfTable)) k (l.map (backfillImage P sfTable))) := by
  refine ⟨(uniqueKeys_iff _).mp hunique k, fun y hy c hc => ?_⟩
  obtain ⟨x, hx, rfl⟩ := List.mem_map.mp ((mem_rowsAt _).mp hy).1
  obtain ⟨r, rfl⟩ := h.rows x hx
  exact backfillImage_blank r.driver_listed hc

end Handover

/-! ### The service takes over -/

section Service

variable {P : Platform} {pgTable sfTable sfHistory : String} {columns : List String}

/-- A row of the key is left: it was read by a page or upserted by the service, and no delete of the key
has been applied since. -/
def Lingers (P : Platform) (sfTable : String) (read : List Row) (changes : List ChangeEvent)
    (k : List PyVal) : Prop :=
  match (changes.filter fun e => changeKey P sfTable e = k).getLast? with
  | some e => e.isUpsert = true
  | none => ∃ row ∈ read, rowKey P sfTable row = k

instance (P : Platform) (sfTable : String) (read : List Row) (changes : List ChangeEvent)
    (k : List PyVal) : Decidable (Lingers P sfTable read changes k) := by
  unfold Lingers
  split <;> infer_instance

/-- A key that lingers is the key of a row that was read, or of a change. -/
theorem mem_of_lingers {read : List Row} {changes : List ChangeEvent} {k : List PyVal}
    (h : Lingers P sfTable read changes k) :
    k ∈ read.map (rowKey P sfTable) ++ changes.map (changeKey P sfTable) := by
  rw [Lingers] at h
  split at h
  · next e hlast =>
    obtain ⟨he, hkey⟩ := List.mem_filter.mp (List.mem_of_getLast? hlast)
    rw [← of_decide_eq_true hkey]
    exact List.mem_append_right _ (List.mem_map_of_mem he)
  · obtain ⟨row, hrow, rfl⟩ := h
    exact List.mem_append_left _ (List.mem_map_of_mem hrow)

/-- Whether changes leave rows of a key is up to the last of them. -/
theorem runOps_changes_ne_nil_iff {changes : List ChangeEvent}
    (h : ∀ e ∈ changes, e.OfTable P pgTable sfTable columns) {read : List Row} {k : List PyVal}
    {rs : List SfRow} (hrs : rs ≠ [] ↔ ∃ row ∈ read, rowKey P sfTable row = k) :
    runOps .none (changes.map (changeOp P sfTable k)) rs ≠ [] ↔ Lingers P sfTable read changes k := by
  rw [runOps_changeOp, Lingers]
  rcases List.eq_nil_or_concat (changes.filter fun e => changeKey P sfTable e = k) with
    hnil | ⟨init, last, hlast⟩
  · rw [hnil]
    exact hrs
  · have hmem : last ∈ changes := by
      apply List.mem_of_mem_filter (p := fun e => changeKey P sfTable e = k)
      rw [hlast, List.concat_eq_append]
      exact List.mem_append_right _ (List.mem_singleton_self _)
    obtain ⟨row, himage, -, -⟩ := (h last hmem).image
    rw [hlast, List.concat_eq_append, List.getLast?_append_of_ne_nil _ (List.cons_ne_nil _ _),
      List.map_append, List.map_singleton]
    show _ ↔ last.isUpsert = true
    cases hup : last.isUpsert with
    | true =>
      rw [ownOp_of_upsert himage hup]
      exact iff_of_true (runOps_snoc_assign_ne_nil PyVal.none _ _ _) rfl
    | false =>
      rw [ownOp_of_delete himage hup, runOps_snoc_remove]
      exact iff_of_false (fun hne => hne rfl) Bool.false_ne_true

variable {cfg : Config} {args : LiveReconcile.ReconcileArgs} {start : ℤ}
  {source : PgTable P sfTable columns} {s : LiveReconcile.State P sfTable columns}
  {ws : List (LiveReconcile.Write P sfTable columns)}

/-- The changes that the service writes in a run. -/
def applied (cfg : Config) (args : LiveReconcile.ReconcileArgs)
    (live : List (LiveReconcile.Input P pgTable sfTable columns))
    (s : LiveReconcile.State P sfTable columns) : List ChangeEvent :=
  (LiveReconcile.writes cfg args live s).filterMap LiveReconcile.Write.event?

/-- Rows that are older than `start` were in the table at the handover, and no change has touched them
since. -/
structure Older (start : ℤ) (source : PgTable P sfTable columns)
    (ws : List (LiveReconcile.Write P sfTable columns)) (s : LiveReconcile.State P sfTable columns) :
    Prop where
  clock : start ≤ s.source.clock
  rows : ∀ r ∈ s.source.rows, r.updatedAt < start → r ∈ source.rows ∧
    ∀ e, e ∈ s.slot ∨ e ∈ s.polled ∨ .change e ∈ ws → changeKey P sfTable e ≠ r.key

theorem Older.step (h : Older start source ws s) (i : LiveReconcile.Input P pgTable sfTable columns) :
    Older start source (ws ++ s.write args i) (LiveReconcile.step cfg args s i) := by
  cases i with
  | op stamp op =>
    show Older start source (ws ++ []) _
    rw [List.append_nil]
    refine ⟨h.clock.trans PgTable.clock_le_apply, fun r hr hold => ?_⟩
    obtain ⟨hmem, hnew⟩ := PgTable.untouched_of_apply hr (hold.trans_le h.clock)
    obtain ⟨hsource, hfree⟩ := h.rows r hmem hold
    refine ⟨hsource, fun e he => ?_⟩
    rcases he with hslot | hpolled | hwritten
    · rcases List.mem_append.mp hslot with hslot | hevent
      · exact hfree e (Or.inl hslot)
      · exact hnew e (Option.mem_toList.mp hevent)
    · exact hfree e (Or.inr (Or.inl hpolled))
    · exact hfree e (Or.inr (Or.inr hwritten))
  | poll n =>
    show Older start source (ws ++ []) _
    rw [List.append_nil]
    refine ⟨h.clock, fun r hr hold => ?_⟩
    obtain ⟨hsource, hfree⟩ := h.rows r hr hold
    refine ⟨hsource, fun e he => ?_⟩
    rcases he with hslot | hpolled | hwritten
    · exact hfree e (Or.inl (List.mem_of_mem_drop hslot))
    · rcases List.mem_append.mp hpolled with hpolled | htaken
      · exact hfree e (Or.inr (Or.inl hpolled))
      · exact hfree e (Or.inl (List.mem_of_mem_take htaken))
    · exact hfree e (Or.inr (Or.inr hwritten))
  | flush env =>
    rw [LiveReconcile.State.write, LiveReconcile.step]
    cases hpolled : s.polled with
    | nil =>
      rw [List.take_nil, List.map_nil, List.append_nil]
      exact h
    | cons e rest =>
      refine ⟨h.clock, fun r hr hold => ?_⟩
      obtain ⟨hsource, hfree⟩ := h.rows r hr hold
      rw [hpolled] at hfree
      refine ⟨hsource, fun e' he' => ?_⟩
      rcases he' with hslot | hrest | hwritten
      · exact hfree e' (Or.inl hslot)
      · exact hfree e' (Or.inr (Or.inl (List.mem_cons_of_mem _ hrest)))
      · rcases List.mem_append.mp hwritten with hwritten | hnew
        · exact hfree e' (Or.inr (Or.inr hwritten))
        · have hsame : e' = e := LiveReconcile.Write.change.inj (List.mem_singleton.mp hnew)
          exact hfree e' (Or.inr (Or.inl (hsame ▸ List.mem_cons_self)))
  | read o =>
    show Older start source (ws ++ []) _
    rw [List.append_nil, LiveReconcile.step]
    split <;> exact ⟨h.clock, h.rows⟩
  | merge o =>
    have hwrite : ∀ e, .change e ∈
        ws ++ s.write args (.merge o : LiveReconcile.Input P pgTable sfTable columns) →
        .change e ∈ ws := by
      intro e he
      refine (List.mem_append.mp he).resolve_right fun hchunk => ?_
      rw [LiveReconcile.State.write] at hchunk
      split at hchunk
      · cases hchunk
      · cases List.mem_singleton.mp hchunk
    rw [LiveReconcile.step]
    split <;> exact ⟨h.clock, fun r hr hold => ⟨(h.rows r hr hold).1, fun e he =>
      (h.rows r hr hold).2 e (he.imp_right fun he => he.imp_right (hwrite e))⟩⟩

variable (cfg args) in
theorem older_run (live : List (LiveReconcile.Input P pgTable sfTable columns))
    (h : Older start source ws s) :
    Older start source (ws ++ LiveReconcile.writes cfg args live s)
      (LiveReconcile.run cfg args live s) := by
  induction live generalizing s ws with
  | nil =>
    rw [LiveReconcile.writes, List.append_nil]
    exact h
  | cons i live ih =>
    rw [LiveReconcile.writes, ← List.append_assoc]
    exact ih (h.step i)

variable (cfg args) in
/-- The service writes changes only. -/
theorem isChange_of_service {live : List (LiveReconcile.Input P pgTable sfTable columns)}
    (hservice : ∀ i ∈ live, i.isService) (s : LiveReconcile.State P sfTable columns) :
    ∀ w ∈ LiveReconcile.writes cfg args live s, w.isChange := by
  have hstart : LiveReconcile.SameService s s := ⟨rfl, rfl, rfl⟩
  have hsame := (LiveReconcile.writes_service cfg args live hstart).1
  rw [List.filter_eq_self.mpr hservice] at hsame
  exact List.filter_eq_self.mp hsame.symm

/-- **What the service leaves at a key.** -/
theorem rowsAt_served (hmap : tableMap.get? pgTable = some (sfTable, sfHistory))
    {live : List (LiveReconcile.Input P pgTable sfTable columns)}
    (hservice : ∀ i ∈ live, i.isService) (hok : ∀ i ∈ live, i.Succeeds cfg)
    (source : PgTable P sfTable columns) (tables : Store) (k : List PyVal) :
    rowsAt (keyOf (pkOf sfTable)) k
        ((LiveReconcile.run cfg args live (.start source tables)).tables sfTable) =
      runOps .none ((applied cfg args live (.start source tables)).map (changeOp P sfTable k))
        (rowsAt (keyOf (pkOf sfTable)) k (tables sfTable)) := by
  have hchanges := isChange_of_service cfg args hservice (.start source tables)
  rw [LiveReconcile.rowsAt_run args hmap (fun e he => absurd he List.not_mem_nil) hok k, applied]
  have hmapped : ∀ ws : List (LiveReconcile.Write P sfTable columns), (∀ w ∈ ws, w.isChange) →
      ws.map (LiveReconcile.Write.opAt k) =
        (ws.filterMap LiveReconcile.Write.event?).map (changeOp P sfTable k) := by
    intro ws hws
    rw [List.map_filterMap, ← List.filterMap_eq_map]
    apply List.filterMap_congr
    intro w hw
    cases w with
    | change e => rfl
    | chunk o rows => exact absurd (hws _ hw) Bool.false_ne_true
  rw [hmapped _ hchanges]
  rfl

end Service

/-! ### The reconciliation at the end -/

section Reconciled

variable {P : Platform} {pgTable sfTable sfHistory : String} {columns : List String}

/-- The rows that `reconcile.py` selects. -/
def selected (args : LiveReconcile.ReconcileArgs)
    (o : KeyOrder fun r : PgRow P sfTable columns => rowId r.driver)
    (source : PgTable P sfTable columns) : List (PgRow P sfTable columns) :=
  o.sort (source.rows.filter fun r => args.since ≤ r.updatedAt)

/-- The tables after the MERGE statements of `reconcile.py`, one chunk after the other. -/
def merged (args : LiveReconcile.ReconcileArgs)
    (o : KeyOrder fun r : PgRow P sfTable columns => rowId r.driver) (tie : Stmt → RowOrder)
    (source : PgTable P sfTable columns) (tables : Store) : Store :=
  execute P tie (reconcileLoop P sfTable args.batch ((selected args o source).map PgRow.driver)).1 tables

/-- The tables after `reconcile.py`, on a source that does not change, when it returns normally. -/
def reconciled (pgTable : String) (args : LiveReconcile.ReconcileArgs)
    (o : KeyOrder fun r : PgRow P sfTable columns => rowId r.driver) (tie : Stmt → RowOrder)
    (source : PgTable P sfTable columns) (tables : Store) : Option Store :=
  (completeReconcile P tie args.batch pgTable ((selected args o source).map PgRow.driver) tables).map
    Prod.fst

/-- A MERGE of the row is executed: it has no column `_LOADED_AT` and one that is no key, and its values
can be bound. -/
def Mergeable (P : Platform) (sfTable : String) (row : Row) : Prop :=
  ((∀ c ∈ row.keys, pgColToSf P c ≠ "_LOADED_AT") ∧ ∃ c ∈ row.keys, pgColToSf P c ∉ pkOf sfTable) ∧
    RowBinds P (rowToSf P row)

instance (P : Platform) (sfTable : String) : DecidablePred (Mergeable P sfTable) :=
  fun _ => inferInstanceAs (Decidable ((_ ∧ _) ∧ _))

/-- What the last script that writes the row stores: `reconcile.py` when it selects the row, else
`backfill.py`. -/
def scriptImage (args : LiveReconcile.ReconcileArgs) (r : PgRow P sfTable columns) : SfRow :=
  if args.since ≤ r.updatedAt then imageRow P sfTable r.driver else backfillImage P sfTable r.driver

variable {args : LiveReconcile.ReconcileArgs}
  {o : KeyOrder fun r : PgRow P sfTable columns => rowId r.driver} {tie : Stmt → RowOrder}
  {source : PgTable P sfTable columns} {tables : Store} {k : List PyVal}

theorem mem_selected {r : PgRow P sfTable columns} :
    r ∈ selected args o source ↔ r ∈ source.rows ∧ args.since ≤ r.updatedAt := by
  rw [selected, (o.perm _).mem_iff, List.mem_filter, decide_eq_true_eq]

theorem driver_listed_selected :
    ∀ row ∈ (selected args o source).map PgRow.driver, row.keys = columns := by
  intro row hrow
  obtain ⟨r, -, rfl⟩ := List.mem_map.mp hrow
  exact r.driver_listed

theorem keyNonNull_selected :
    ∀ row ∈ (selected args o source).map PgRow.driver, KeyNonNull P sfTable row := by
  intro row hrow
  obtain ⟨r, -, rfl⟩ := List.mem_map.mp hrow
  exact r.driver_keyNonNull

/-- **The script returns normally exactly when each selected row can be merged.** -/
theorem reconciled_eq (hmap : tableMap.get? pgTable = some (sfTable, sfHistory))
    (hbatch : 0 < args.batch) :
    reconciled pgTable args o tie source tables =
      if ∀ r ∈ source.rows, args.since ≤ r.updatedAt → Mergeable P sfTable r.driver then
        some (merged args o tie source tables)
      else none := by
  have hcond : (((selected args o source).map PgRow.driver ≠ [] →
      (∀ c ∈ columns, pgColToSf P c ≠ "_LOADED_AT") ∧ ∃ c ∈ columns, pgColToSf P c ∉ pkOf sfTable) ∧
        ∀ row ∈ (selected args o source).map PgRow.driver, RowBinds P (rowToSf P row)) ↔
      ∀ r ∈ source.rows, args.since ≤ r.updatedAt → Mergeable P sfTable r.driver := by
    constructor
    · rintro ⟨hcols, hbinds⟩ r hr hsince
      have hmem := List.mem_map_of_mem (f := PgRow.driver) (mem_selected (o := o).mpr ⟨hr, hsince⟩)
      refine ⟨?_, hbinds r.driver hmem⟩
      rw [r.driver_listed]
      exact hcols (List.ne_nil_of_mem hmem)
    · intro h
      have hrow : ∀ row ∈ (selected args o source).map PgRow.driver, Mergeable P sfTable row := by
        intro row hrow
        obtain ⟨r, hr, rfl⟩ := List.mem_map.mp hrow
        exact h r (mem_selected.mp hr).1 (mem_selected.mp hr).2
      refine ⟨fun hne => ?_, fun row hmem => (hrow row hmem).2⟩
      obtain ⟨row, hmem⟩ := List.exists_mem_of_ne_nil _ hne
      exact driver_listed_selected row hmem ▸ (hrow row hmem).1
  rw [reconciled, completeReconcile_eq hmap driver_listed_selected keyNonNull_selected hbatch tie
    (List.Perm.refl _), if_congr hcond rfl rfl]
  split <;> rfl

/-- The statements of the script at a key. -/
theorem rowsAt_merged :
    rowsAt (keyOf (pkOf sfTable)) k (merged args o tie source tables sfTable) =
      runOps .none
        ((reconcileLoop P sfTable args.batch ((selected args o source).map PgRow.driver)).1.map
          (Stmt.opAt P tie sfTable k)) (rowsAt (keyOf (pkOf sfTable)) k (tables sfTable)) := by
  apply rowsAt_execute
  intro stmt hstmt
  obtain ⟨first, rest, hsub, rfl⟩ := mem_reconcileLoop hstmt
  exact keyedOn_chunkMerge (fun row hrow => keyNonNull_selected row (hsub hrow)) sfTable

/-- A key without a selected row is left alone. -/
theorem rowsAt_merged_free
    (hfree : ∀ r ∈ source.rows, args.since ≤ r.updatedAt → r.key ≠ k) :
    rowsAt (keyOf (pkOf sfTable)) k (merged args o tie source tables sfTable) =
      rowsAt (keyOf (pkOf sfTable)) k (tables sfTable) := by
  rw [rowsAt_merged]
  apply runOps_reconcileLoop_free driver_listed_selected
  intro row hrow hkey
  obtain ⟨r, hr, rfl⟩ := List.mem_map.mp hrow
  obtain ⟨hmem, hsince⟩ := mem_selected.mp hr
  exact hfree r hmem hsince (r.driver_key.symm.trans hkey)

/-- The key of a selected row gets the row. -/
theorem rowsAt_merged_selected (hbatch : 0 < args.batch) {r : PgRow P sfTable columns}
    (hr : r ∈ source.rows) (hsince : args.since ≤ r.updatedAt)
    (hneat : Neat P columns (rowsAt (keyOf (pkOf sfTable)) r.key (tables sfTable))) :
    rowsAt (keyOf (pkOf sfTable)) r.key (merged args o tie source tables sfTable) =
      [imageRow P sfTable r.driver] := by
  have hkeys : (((selected args o source).map PgRow.driver).map (rowKey P sfTable)).Nodup := by
    have hsame : ((selected args o source).map PgRow.driver).map (rowKey P sfTable) =
        (selected args o source).map PgRow.key := by
      rw [List.map_map]
      exact List.map_congr_left fun r _ => r.driver_key
    rw [hsame, selected, ((o.perm _).map PgRow.key).nodup_iff]
    exact source.unique.sublist (List.filter_sublist.map _)
  have hmem := List.mem_map_of_mem (f := PgRow.driver) (mem_selected (o := o).mpr ⟨hr, hsince⟩)
  have hkey : rowKey P sfTable r.driver = r.key := r.driver_key
  rw [rowsAt_merged, runOps_reconcileLoop driver_listed_selected tie hbatch hkeys hmem hkey]
  exact hneat.act_assign r.driver_listed

end Reconciled

/-! ### The whole procedure -/

section Procedure

variable {P : Platform} {pgTable sfTable sfHistory : String} {columns : List String} {cfg : Config}
  {args : LiveReconcile.ReconcileArgs} {start : ℤ} {l : List Row} {handed : State P sfTable columns}
  {live : List (LiveReconcile.Input P pgTable sfTable columns)}

/-- The slot is created, and the service runs from there. -/
abbrev served (cfg : Config) (args : LiveReconcile.ReconcileArgs)
    (live : List (LiveReconcile.Input P pgTable sfTable columns)) (handed : State P sfTable columns) :
    LiveReconcile.State P sfTable columns :=
  LiveReconcile.run cfg args live (.start handed.source handed.script.tables)

/-- The changes that the service applies. -/
abbrev served.changes (cfg : Config) (args : LiveReconcile.ReconcileArgs)
    (live : List (LiveReconcile.Input P pgTable sfTable columns)) (handed : State P sfTable columns) :
    List ChangeEvent :=
  applied cfg args live (.start handed.source handed.script.tables)

theorem ofTable_changes : ∀ e ∈ served.changes cfg args live handed,
    e.OfTable P pgTable sfTable columns := by
  intro e he
  obtain ⟨w, hw, hevent⟩ := List.mem_filterMap.mp he
  cases w with
  | chunk o rows => cases hevent
  | change e' =>
    rw [← Option.some.inj hevent]
    exact LiveReconcile.changesOf_writes cfg args live (fun e he => absurd he List.not_mem_nil) e' hw

/-- A backfill that is done has written what it has read. -/
theorem Loaded.tables_eq (h : Loaded pgTable start l handed)
    (hdone : handed.script.control = .completed) :
    handed.script.tables sfTable = l.map (backfillImage P sfTable) := by
  have hplace := h.place
  rw [hdone] at hplace
  exact hplace

variable (hmap : tableMap.get? pgTable = some (sfTable, sfHistory))
  (h : Loaded pgTable start l handed) (hdone : handed.script.control = .completed)
  (hservice : ∀ i ∈ live, i.isService) (hok : ∀ i ∈ live, i.Succeeds cfg)

include hmap h hdone hservice hok

/-- Every key is neat when the service is done. -/
theorem neat_served (hunique : UniqueKeys (keyOf (pkOf sfTable)) (l.map (backfillImage P sfTable)))
    (k : List PyVal) :
    Neat P columns (rowsAt (keyOf (pkOf sfTable)) k ((served cfg args live handed).tables sfTable)) := by
  rw [rowsAt_served hmap hservice hok, h.tables_eq hdone]
  refine Replay.run_invariant _ (h.neat hunique k) ?_
  intro op hop rs hrs
  obtain ⟨e, he, rfl⟩ := List.mem_map.mp hop
  exact hrs.change (ofTable_changes e he) k

/-- A key has rows when the service is done exactly if it lingers. -/
theorem rowsAt_served_ne_nil_iff (k : List PyVal) :
    rowsAt (keyOf (pkOf sfTable)) k ((served cfg args live handed).tables sfTable) ≠ [] ↔
      Lingers P sfTable l (served.changes cfg args live handed) k := by
  rw [rowsAt_served hmap hservice hok, h.tables_eq hdone]
  exact runOps_changes_ne_nil_iff ofTable_changes (h.rowsAt_ne_nil_iff k)

/-- **A row that is older than the backfill has been loaded and left alone since.** -/
theorem rowsAt_served_older
    (hunique : UniqueKeys (keyOf (pkOf sfTable)) (l.map (backfillImage P sfTable)))
    {r : PgRow P sfTable columns} (hr : r ∈ (served cfg args live handed).source.rows)
    (hold : r.updatedAt < start) :
    rowsAt (keyOf (pkOf sfTable)) r.key ((served cfg args live handed).tables sfTable) =
      [backfillImage P sfTable r.driver] := by
  have hstart : Older start handed.source []
      (LiveReconcile.State.start handed.source handed.script.tables) := by
    refine ⟨h.clock, fun r hr _ => ⟨hr, ?_⟩⟩
    rintro e (hslot | hpolled | hwritten)
    · cases hslot
    · cases hpolled
    · cases hwritten
  obtain ⟨hmem, hfree⟩ := (older_run cfg args live hstart).rows r hr hold
  have hpassed : Passed (rowId r.driver) handed.script.control := by
    rw [hdone]
    trivial
  have hread := h.covers r hmem hold hpassed
  have hkey : keyOf (pkOf sfTable) (backfillImage P sfTable r.driver) = r.key := r.backfill_key
  have hloaded : rowsAt (keyOf (pkOf sfTable)) r.key (l.map (backfillImage P sfTable)) =
      [backfillImage P sfTable r.driver] := by
    rw [rowsAt_of_uniqueKeys _ hunique, ← hkey, find?_key_of_mem _ hunique (List.mem_map_of_mem hread)]
    rfl
  rw [rowsAt_served hmap hservice hok, h.tables_eq hdone, hloaded]
  refine Replay.run_invariant (P := fun rs => rs = [backfillImage P sfTable r.driver]) _ rfl ?_
  intro op hop rs hrs
  obtain ⟨e, he, rfl⟩ := List.mem_map.mp hop
  obtain ⟨w, hw, hevent⟩ := List.mem_filterMap.mp he
  cases w with
  | chunk o rows => cases hevent
  | change e' =>
    rw [← Option.some.inj hevent, changeOp, if_neg (hfree e' (Or.inr (Or.inr hw)))]
    exact hrs

/-- **The table at the key of a row of the source.** -/
theorem rowsAt_merged_of_row
    (hunique : UniqueKeys (keyOf (pkOf sfTable)) (l.map (backfillImage P sfTable)))
    (hsince : args.since ≤ start) (hbatch : 0 < args.batch)
    (o : KeyOrder fun r : PgRow P sfTable columns => rowId r.driver) (tie : Stmt → RowOrder)
    {r : PgRow P sfTable columns} (hr : r ∈ (served cfg args live handed).source.rows) :
    rowsAt (keyOf (pkOf sfTable)) r.key
        (merged args o tie (served cfg args live handed).source
          (served cfg args live handed).tables sfTable) =
      [scriptImage args r] := by
  rw [scriptImage]
  split
  · next hrecent =>
    exact rowsAt_merged_selected hbatch hr hrecent
      (neat_served hmap h hdone hservice hok hunique r.key)
  · next hold =>
    have hfree : ∀ r' ∈ (served cfg args live handed).source.rows, args.since ≤ r'.updatedAt →
        r'.key ≠ r.key := by
      intro r' hr' hrecent hkey
      have hsame : r' = r :=
        List.inj_on_of_nodup_map (served cfg args live handed).source.unique hr' hr hkey
      exact hold (hsame ▸ hrecent)
    rw [rowsAt_merged_free hfree]
    exact rowsAt_served_older hmap h hdone hservice hok hunique hr
      ((not_le.mp hold).trans_le hsince)

/-- **The table at a key that the source does not have.** -/
theorem rowsAt_merged_of_gone (o : KeyOrder fun r : PgRow P sfTable columns => rowId r.driver)
    (tie : Stmt → RowOrder) {k : List PyVal}
    (hgone : ∀ r ∈ (served cfg args live handed).source.rows, r.key ≠ k) :
    rowsAt (keyOf (pkOf sfTable)) k
        (merged args o tie (served cfg args live handed).source
          (served cfg args live handed).tables sfTable) ≠ [] ↔
      Lingers P sfTable l (served.changes cfg args live handed) k := by
  rw [rowsAt_merged_free fun r hr _ => hgone r hr]
  exact rowsAt_served_ne_nil_iff hmap h hdone hservice hok k

end Procedure

/-! ### What is lost in the gap -/

section Gap

variable {P : Platform} {pgTable sfTable sfHistory : String} {columns : List String} {cfg : Config}
  {args : LiveReconcile.ReconcileArgs} {handed : State P sfTable columns}
  {live : List (LiveReconcile.Input P pgTable sfTable columns)}

/-- The rows of a key, as psycopg2 delivers them. -/
theorem exists_driver_iff (t : PgTable P sfTable columns) (k : List PyVal) :
    (∃ row ∈ t.rows.map PgRow.driver, rowKey P sfTable row = k) ↔ ∃ r ∈ t.rows, r.key = k := by
  constructor
  · rintro ⟨row, hrow, hkey⟩
    obtain ⟨r, hr, rfl⟩ := List.mem_map.mp hrow
    exact ⟨r, hr, r.driver_key.symm.trans hkey⟩
  · rintro ⟨r, hr, hkey⟩
    exact ⟨r.driver, List.mem_map_of_mem hr, r.driver_key.trans hkey⟩

variable (hmap : tableMap.get? pgTable = some (sfTable, sfHistory)) (hservice : ∀ i ∈ live, i.isService)
  (hok : ∀ i ∈ live, i.Succeeds cfg) (hkeeps : ∀ i ∈ live, i.KeepsKey)
  (hpolled : (served cfg args live handed).polled = [])
  (hslot : (served cfg args live handed).slot = [])

include hmap hservice hok hkeeps hpolled hslot

/-- The applied changes lead from the source at the handover to the source at the end. -/
theorem rowsAt_images_served (k : List PyVal) :
    (runOps .none ((served.changes cfg args live handed).map (changeOp P sfTable k))
      (rowsAt (keyOf (pkOf sfTable)) k handed.source.images)).Perm
    (rowsAt (keyOf (pkOf sfTable)) k (served cfg args live handed).source.images) := by
  -- a service that starts in step with the source applies the same changes
  have hsame : LiveReconcile.SameService (.start handed.source handed.script.tables)
      (.start handed.source fun _ => handed.source.images) := ⟨rfl, rfl, rfl⟩
  obtain ⟨hwrites, hsource, hslot', hpolled'⟩ := LiveReconcile.writes_service cfg args live hsame
  rw [List.filter_eq_self.mpr hservice] at hwrites hsource hslot' hpolled'
  rw [List.filter_eq_self.mpr (isChange_of_service cfg args hservice _)] at hwrites
  have hfollows := LiveReconcile.service_follows cfg args hmap hservice hok hkeeps rfl
    (hpolled'.trans hpolled) (hslot'.trans hslot)
  have hat := rowsAt_perm (keyOf (pkOf sfTable)) hfollows k
  rw [rowsAt_served hmap hservice hok, hsource, applied, hwrites] at hat
  exact hat

/-- **A key lingers that the source does not have exactly when** a page has read a row of it that is no
longer there when the slot is created, and no change of it follows: the gap swallows deletes. -/
theorem lingers_iff_lost (read : List Row) (k : List PyVal) :
    (Lingers P sfTable read (served.changes cfg args live handed) k ∧
        ∀ r ∈ (served cfg args live handed).source.rows, r.key ≠ k) ↔
      (∃ row ∈ read, rowKey P sfTable row = k) ∧ (∀ r ∈ handed.source.rows, r.key ≠ k) ∧
        ∀ e ∈ served.changes cfg args live handed, changeKey P sfTable e ≠ k := by
  have hgone : (∀ r ∈ (served cfg args live handed).source.rows, r.key ≠ k) ↔
      ¬ Lingers P sfTable (handed.source.rows.map PgRow.driver)
        (served.changes cfg args live handed) k := by
    have hstart : rowsAt (keyOf (pkOf sfTable)) k handed.source.images ≠ [] ↔
        ∃ row ∈ handed.source.rows.map PgRow.driver, rowKey P sfTable row = k :=
      PgTable.rowsAt_images_ne_nil_iff.trans (exists_driver_iff handed.source k).symm
    have hperm := rowsAt_images_served hmap hservice hok hkeeps hpolled hslot k
    rw [← runOps_changes_ne_nil_iff ofTable_changes hstart, not_ne_iff, ← List.length_eq_zero_iff,
      hperm.length_eq, List.length_eq_zero_iff, ← not_ne_iff, PgTable.rowsAt_images_ne_nil_iff]
    push Not
    rfl
  have hhanded : (∀ r ∈ handed.source.rows, r.key ≠ k) ↔
      ¬ ∃ row ∈ handed.source.rows.map PgRow.driver, rowKey P sfTable row = k := by
    rw [exists_driver_iff]
    push Not
    rfl
  rw [hgone, hhanded, Lingers, Lingers]
  cases hlast : ((served.changes cfg args live handed).filter fun e =>
      changeKey P sfTable e = k).getLast? with
  | some e =>
    -- the last change of the key decides alike, whoever had the key before
    obtain ⟨he, hkey⟩ := List.mem_filter.mp (List.mem_of_getLast? hlast)
    exact iff_of_false (fun h => h.2 h.1) fun h => h.2.2 e he (of_decide_eq_true hkey)
  | none =>
    have hfree : ∀ e ∈ served.changes cfg args live handed, changeKey P sfTable e ≠ k := by
      simpa using List.getLast?_eq_none_iff.mp hlast
    exact ⟨fun h => ⟨h.1, h.2, hfree⟩, fun h => ⟨h.1, h.2.1⟩⟩

end Gap

/-- **The bootstrap of a table.**  For any changes of the table before, between and after the pages of
the backfill, any time at which the slot is created, and any changes from there on: the backfill returns,
and so does `reconcile.py`, run with a `since` not behind the start of the backfill on a source that has
come to rest, and leaves a table equal to the source, if and only if every row that a page has read can be
inserted and every selected row can be merged, every row is stored by the script that writes it last as
replication stores it, and no key lingers that the source does not have. -/
theorem bootstrap_reaches_source_iff {P : Platform} {pgTable sfTable sfHistory : String}
    (hmap : tableMap.get? pgTable = some (sfTable, sfHistory))
    (hstored : Function.Injective fun i : ℤ => P.sqlValue sfTable "ID" (.int i))
    {columns : List String} (honly : ∀ n ∈ columns, pgColToSf P n = "ID" → n = "id")
    (bcfg : BackfillConfig)
    (cfg : Config) (args : LiveReconcile.ReconcileArgs) (hbatch : 0 < args.batch)
    (o : KeyOrder fun r : PgRow P sfTable columns => rowId r.driver) (tie : Stmt → RowOrder)
    (source : PgTable P sfTable columns) (tables : Store)
    (loading : List (Input P pgTable sfTable columns))
    (hids : Replay.Along (fun i s => step bcfg s i) (fun s _ => s.source.PositiveIds) loading
      (.start pgTable source tables))
    (hends : Backfill.Ends P bcfg (run bcfg loading (.start pgTable source tables)).script)
    (live : List (LiveReconcile.Input P pgTable sfTable columns)) (hservice : ∀ i ∈ live, i.isService)
    (hok : ∀ i ∈ live, i.Succeeds cfg)
    (hsince : args.since ≤ source.clock) :
    let handed := run bcfg loading (.start pgTable source tables)
    let final := served cfg args live handed
    let read := pages bcfg loading (.start pgTable source tables)
    (handed.script.control = .completed ∧
      ∃ after, reconciled pgTable args o tie final.source final.tables = some after ∧
        (after sfTable).Perm final.source.images) ↔
      ((∀ row ∈ read, Insertable P row) ∧
        ∀ r ∈ final.source.rows, args.since ≤ r.updatedAt → Mergeable P sfTable r.driver) ∧
      (∀ r ∈ final.source.rows, scriptImage args r = r.image) ∧
        ∀ k, Lingers P sfTable read (served.changes cfg args live handed) k →
          ∃ r ∈ final.source.rows, r.key = k := by
  intro handed final read
  have h : Loaded pgTable source.clock read handed := loaded_run hids (loaded_start source tables)
  have hreturns : (handed.script.control = .completed ∧
      ∃ after, reconciled pgTable args o tie final.source final.tables = some after ∧
        (after sfTable).Perm final.source.images) ↔
      ((∀ row ∈ read, Insertable P row) ∧
        ∀ r ∈ final.source.rows, args.since ≤ r.updatedAt → Mergeable P sfTable r.driver) ∧
      handed.script.control = .completed ∧
        (merged args o tie final.source final.tables sfTable).Perm final.source.images := by
    rw [← h.completed_iff hends, reconciled_eq hmap hbatch]
    split
    · next hmerged =>
      constructor
      · rintro ⟨hdone, after, hafter, hequal⟩
        exact ⟨⟨hdone, hmerged⟩, hdone, Option.some.inj hafter ▸ hequal⟩
      · rintro ⟨-, hdone, hequal⟩
        exact ⟨hdone, _, rfl, hequal⟩
    · next hmerged =>
      constructor
      · rintro ⟨-, after, hafter, -⟩
        cases hafter
      · rintro ⟨⟨-, hall⟩, -⟩
        exact absurd hall hmerged
  rw [hreturns]
  refine and_congr_right fun hcan => ?_
  have hdone := (h.completed_iff hends).mpr hcan.1
  rw [and_iff_right hdone]
  have hunique := h.uniqueKeys hmap hstored honly
  have hrow : ∀ r ∈ final.source.rows, _ := fun r hr =>
    rowsAt_merged_of_row hmap h hdone hservice hok hunique hsince hbatch o tie hr
  have himage : ∀ r ∈ final.source.rows,
      rowsAt (keyOf (pkOf sfTable)) r.key final.source.images = [r.image] := by
    intro r hr
    rw [PgTable.rowsAt_images, PgTable.row?_eq_some_iff.mpr ⟨hr, rfl⟩]
    rfl
  constructor
  · intro hequal
    refine ⟨fun r hr => ?_, fun k hk => ?_⟩
    · have hat := rowsAt_perm (keyOf (pkOf sfTable)) hequal r.key
      rw [hrow r hr, himage r hr, List.perm_singleton] at hat
      exact List.singleton_injective hat
    · by_contra hnone
      have hgone : ∀ r ∈ final.source.rows, r.key ≠ k := fun r hr hkey => hnone ⟨r, hr, hkey⟩
      have hne := (rowsAt_merged_of_gone hmap h hdone hservice hok o tie hgone).mpr hk
      obtain ⟨x, hx⟩ := List.exists_mem_of_ne_nil _ hne
      have hmem := (rowsAt_perm (keyOf (pkOf sfTable)) hequal k).mem_iff.mp hx
      obtain ⟨r, hr, hkey, -⟩ := PgTable.mem_images_at.mp hmem
      exact hgone r hr hkey
  · rintro ⟨hstores, hlingers⟩
    apply perm_of_rowsAt (keyOf (pkOf sfTable))
    intro k
    by_cases hk : ∃ r ∈ final.source.rows, r.key = k
    · obtain ⟨r, hr, rfl⟩ := hk
      rw [hrow r hr, himage r hr, hstores r hr]
    · have hgone : ∀ r ∈ final.source.rows, r.key ≠ k := fun r hr hkey => hk ⟨r, hr, hkey⟩
      have hnil := not_ne_iff.mp (mt (rowsAt_merged_of_gone hmap h hdone hservice hok o tie
        hgone).mp (mt (hlingers k) hk))
      have hsource : rowsAt (keyOf (pkOf sfTable)) k final.source.images = [] :=
        not_ne_iff.mp (mt PgTable.rowsAt_images_ne_nil_iff.mp hk)
      rw [hnil, hsource]

/-! ### Sample runs -/

section Samples

variable {P : Platform} {sfTable : String} {columns : List String}

instance (t : PgTable P sfTable columns) : Decidable t.PositiveIds :=
  decidable_of_iff ((∀ r ∈ t.rows, 0 < rowId r.driver) ∧ ((t.rows.map PgRow.driver).map rowId).Nodup)
    ⟨fun h => ⟨h.1, h.2⟩, fun h => ⟨h.1, h.2⟩⟩

/-- Whether a script stores a row as replication does can be seen from the columns of the row. -/
theorem scriptImage_eq_image {args : LiveReconcile.ReconcileArgs} {r : PgRow P sfTable columns}
    (h : ∀ n ∈ columns, scriptImage args r (pgColToSf P n) = r.image (pgColToSf P n)) :
    scriptImage args r = r.image := by
  have hblank : ∀ row : Row, row.keys = columns → ∀ c, (∀ n ∈ columns, pgColToSf P n ≠ c) →
      imageRow P sfTable row c = .none := by
    intro row hrow c hc
    apply imageRow_of_notMem
    rw [mem_keys_rowToSf, hrow]
    rintro ⟨n, hn, hname⟩
    exact hc n hn hname
  funext c
  by_cases hc : ∃ n ∈ columns, pgColToSf P n = c
  · obtain ⟨n, hn, rfl⟩ := hc
    exact h n hn
  · push Not at hc
    rw [PgRow.image, hblank r.wire r.wire_listed c hc, scriptImage]
    split
    · exact hblank r.driver r.driver_listed c hc
    · exact backfillImage_blank r.driver_listed hc

end Samples

/-- One page holds every row. -/
def onePage : BackfillConfig := ⟨10, 10, by decide, by decide⟩

/-- `customers` as it is when the backfill starts, in front of an empty target. -/
def customersStart : State .ascii "CUSTOMERS" ["id", "tenant_id", "status"] :=
  .start "customers" LiveReconcile.twoCustomers fun _ => []

/-- The script goes on for `n` steps. -/
def goOn (n : ℕ) : List (Input .ascii "customers" "CUSTOMERS" ["id", "tenant_id", "status"]) :=
  List.replicate n (.proceed (.stable _))

/-- A row is updated behind its page, before the slot is created. -/
def updateInGap : List (Input .ascii "customers" "CUSTOMERS" ["id", "tenant_id", "status"]) :=
  goOn 3 ++ .op (customerStamp 100) (.update freeCustomer.key paidCustomer) :: goOn 4

/-- The other row is deleted behind the slot, and the service applies the change. -/
def deleteBehindSlot :
    List (LiveReconcile.Input .ascii "customers" "CUSTOMERS" ["id", "tenant_id", "status"]) :=
  [.op (customerStamp 200) (.delete otherCustomer.key), .poll 1, .flush (sampleEnv true)]

/-- A row is deleted behind its page, before the slot is created. -/
def deleteInGap : List (Input .ascii "customers" "CUSTOMERS" ["id", "tenant_id", "status"]) :=
  goOn 7 ++ [.op (customerStamp 100) (.delete freeCustomer.key)]

theorem bootstrap_reaches_source_customers :
    let handed := run onePage updateInGap customersStart
    let final := served LiveReconcile.sampleConfig ⟨15, 5⟩ deleteBehindSlot handed
    handed.script.control = .completed ∧
      ∃ after, reconciled "customers" ⟨15, 5⟩ (.stable _) lastFirstTie final.source final.tables =
          some after ∧ (after "CUSTOMERS").Perm final.source.images := by
  have hmap : tableMap.get? "customers" = some ("CUSTOMERS", "CUSTOMERS_HISTORY") := by decide
  have hstored : Function.Injective fun i : ℤ => Platform.ascii.sqlValue "CUSTOMERS" "ID" (.int i) :=
    fun i j hij => Int.repr_injective (PyVal.str.inj hij)
  have hflush : (sampleEnv true).Succeeds LiveReconcile.sampleConfig := by decide
  refine (bootstrap_reaches_source_iff hmap hstored (by decide +kernel) onePage
    LiveReconcile.sampleConfig ⟨15, 5⟩ (by decide) (.stable _) lastFirstTie LiveReconcile.twoCustomers
    (fun _ => []) updateInGap ?_ (.inl rfl) deleteBehindSlot ?_ ?_ (by decide)).mpr
    ⟨⟨?_, ?_⟩, fun r hr => ?_, fun k hk => ?_⟩
  · decide +kernel
  · decide
  · simpa [deleteBehindSlot, LiveReconcile.Input.Succeeds] using hflush
  · decide +kernel
  · decide +kernel
  · apply scriptImage_eq_image
    revert r
    decide +kernel
  · have hlist := mem_of_lingers hk
    revert hk
    revert k
    decide +kernel

theorem bootstrap_keeps_deleted_customer :
    let handed := run onePage deleteInGap customersStart
    let final := served LiveReconcile.sampleConfig ⟨15, 5⟩ deleteBehindSlot handed
    (Replay.Along (fun i s => step onePage s i) (fun s _ => s.source.PositiveIds) deleteInGap
        customersStart ∧ handed.script.control = .completed ∧ final.slot = [] ∧ final.polled = []) ∧
      ∃ after, reconciled "customers" ⟨15, 5⟩ (.stable _) lastFirstTie final.source final.tables =
          some after ∧ ¬ (after "CUSTOMERS").Perm final.source.images := by
  intro handed final
  have hmap : tableMap.get? "customers" = some ("CUSTOMERS", "CUSTOMERS_HISTORY") := by decide
  have hmergeable : ∀ r ∈ final.source.rows, 15 ≤ r.updatedAt → Mergeable .ascii "CUSTOMERS" r.driver := by
    decide +kernel
  refine ⟨⟨by decide +kernel, rfl, rfl, rfl⟩, _,
    (reconciled_eq hmap (by decide)).trans (if_pos hmergeable), fun hequal => ?_⟩
  have hids := hequal.map fun r => r "ID"
  revert hids
  decide +kernel

end Bootstrap

end PgSnowflakeCdc
