import PgSnowflakeCdc.Foundations.Paging
import PgSnowflakeCdc.Sink.WriteBatch

/-!
# The backfill script (`scripts/backfill.py`)

Each configured table is read page by page, by keyset pagination on `id`, and every page is written by
multi-row INSERTs and then recorded in the checkpoint file.  A run may end at any point, by an exception
or from outside; the next one goes on from the checkpoint.

* `backfillRowToSf`, `batchInsert` — the conversion of a row, and one INSERT with its cached text;
* `Backfill.step` — one step of `main`: the start of a process, a turn of the table loop, the TRUNCATE,
  a page query, one INSERT, a checkpoint save; or the end of the process;
* `Backfill.Raises` — in front of an INSERT that raises, from where a process only ends;
* `batchInsert_onTable` — what an INSERT adds to its table;
* `batchInsert_succeeds_iff` — when it is executed.
-/

namespace PgSnowflakeCdc

open OrderedDict Paging

/-! ### Rows -/

/-- The value `backfill._row_to_sf` stores: a container is serialised, whatever its column. -/
def backfillValue : PyVal → PyVal
  | .dict kvs => .str (Json.obj kvs).dumps
  | .list xs => .str (Json.arr xs).dumps
  | val => val

/-- `backfill._row_to_sf`. -/
def backfillRowToSf (P : Platform) (row : Row) : Row :=
  Dict.ofPairs (row.entries.map fun p => (pgColToSf P p.1, backfillValue p.2))

/-- An INSERT of the row is executed: it has no column `_LOADED_AT`, and its values can be bound. -/
def Insertable (P : Platform) (row : Row) : Prop :=
  "_LOADED_AT" ∉ (backfillRowToSf P row).keys ∧ RowBinds P (backfillRowToSf P row)

instance (P : Platform) : DecidablePred (Insertable P) := fun _ => inferInstanceAs (Decidable (_ ∧ _))

/-- `int(row["id"])`, for a row with an integer `id`. -/
def rowId (row : Row) : ℤ :=
  match row.get? "id" with
  | some (.int i) => i
  | _ => 0

/-- A row as its target table holds it. -/
def backfillImage (P : Platform) (sfTable : String) (row : Row) : SfRow := fun c =>
  boundValue P sfTable c (cell (backfillRowToSf P row) c)

/-- The columns of the converted rows of a table. -/
def sfColumns (P : Platform) (columns : List String) : List String :=
  (Dict.ofPairs (columns.map fun c => (pgColToSf P c, ()))).keys

theorem keys_backfillRowToSf (P : Platform) (row : Row) :
    (backfillRowToSf P row).keys = sfColumns P row.keys := by
  apply Dict.keys_ofPairs_congr
  rw [Dict.keys, List.map_map, List.map_map, List.map_map]
  rfl

/-! ### One INSERT -/

/-- One turn of the batch loop: the text for a batch is built on its first use and kept under the size
of the batch, here as its column list; the parameters are those of the page's columns. -/
def batchInsert (P : Platform) (sfTable : String) (allCols : List String)
    (sqlCache : Dict ℕ (List String)) (batch : List Row) : Stmt × Dict ℕ (List String) :=
  let sqlCache := match sqlCache.get? batch.length with
    | some _ => sqlCache
    | none => sqlCache.set batch.length allCols
  (.insert sfTable ((sqlCache.get? batch.length).getD [])
    (batch.map fun row => allCols.map (cell (backfillRowToSf P row))), sqlCache)

/-- `list(sf_rows[0].keys())`. -/
def pageColumns (P : Platform) : List Row → List String
  | [] => []
  | first :: _ => (backfillRowToSf P first).keys

/-- Every cached text is for the columns `allCols`. -/
def CachesOnly (allCols : List String) (sqlCache : Dict ℕ (List String)) : Prop :=
  ∀ n cols, sqlCache.get? n = some cols → cols = allCols

section BatchInsert

variable {P : Platform} {sfTable : String}

/-- The columns in the text of a batch: the cached ones, or those of the page. -/
theorem batchInsert_fst (allCols : List String) (sqlCache : Dict ℕ (List String)) (batch : List Row) :
    (batchInsert P sfTable allCols sqlCache batch).1 =
      .insert sfTable ((sqlCache.get? batch.length).getD allCols)
        (batch.map fun row => allCols.map (cell (backfillRowToSf P row))) := by
  rw [batchInsert]
  dsimp only
  cases hget : sqlCache.get? batch.length with
  | none =>
    dsimp only
    rw [Dict.get?_set_self, Option.getD_some, Option.getD_none]
  | some cols =>
    dsimp only
    rw [hget, Option.getD_some, Option.getD_some]

/-- They are kept for the batches of this size. -/
theorem get?_batchInsert_snd (allCols : List String) (sqlCache : Dict ℕ (List String))
    (batch : List Row) (n : ℕ) :
    (batchInsert P sfTable allCols sqlCache batch).2.get? n =
      if n = batch.length then some ((sqlCache.get? n).getD allCols) else sqlCache.get? n := by
  rw [batchInsert]
  dsimp only
  cases hget : sqlCache.get? batch.length with
  | none =>
    dsimp only
    rw [Dict.get?_set]
    split
    · next hn => rw [hn, hget, Option.getD_none]
    · rfl
  | some cols =>
    dsimp only
    split
    · next hn => rw [hn, hget, Option.getD_some]
    · rfl

variable {allCols : List String} {sqlCache : Dict ℕ (List String)}
  (hcache : CachesOnly allCols sqlCache) (sfTable : String) (batch : List Row)

include hcache

theorem getD_of_cachesOnly (n : ℕ) : (sqlCache.get? n).getD allCols = allCols := by
  cases hget : sqlCache.get? n with
  | none => rfl
  | some cols => exact hcache n cols hget

theorem batchInsert_cache : CachesOnly allCols (batchInsert P sfTable allCols sqlCache batch).2 := by
  intro n cols hget
  rw [get?_batchInsert_snd, getD_of_cachesOnly hcache] at hget
  split at hget
  · exact (Option.some.inj hget).symm
  · exact hcache n cols hget

/-- The text executed lists the page's columns. -/
theorem batchInsert_stmt :
    (batchInsert P sfTable allCols sqlCache batch).1 =
      .insert sfTable allCols
        (batch.map fun row => allCols.map (cell (backfillRowToSf P row))) := by
  rw [batchInsert_fst, getD_of_cachesOnly hcache]

/-- **An INSERT appends the images of its batch.** -/
theorem batchInsert_onTable (hrows : ∀ row ∈ batch, (backfillRowToSf P row).keys = allCols)
    (o : RowNumbering.RowOrder) (t : Table) :
    (batchInsert P sfTable allCols sqlCache batch).1.onTable P o t =
      t ++ batch.map (backfillImage P sfTable) := by
  rw [batchInsert_stmt hcache, Stmt.onTable, sourceRows, List.map_map]
  congr 1
  apply List.map_congr_left
  intro row hrow
  funext c
  rw [Function.comp_apply, sourceRow_map, backfillImage]
  by_cases hc : c ∈ allCols
  · rw [if_pos hc]
  · have hnone : cell (backfillRowToSf P row) c = .none := by
      by_contra hcell
      rw [← hrows row hrow] at hc
      exact hc (mem_keys_of_cell hcell)
    rw [if_neg hc, hnone, boundValue, P.parsedJson_null, (P.sqlValue_eq_none sfTable c .none).mpr rfl,
      ite_self]

/-- **When an INSERT is executed.** -/
theorem batchInsert_succeeds_iff (hrows : ∀ row ∈ batch, (backfillRowToSf P row).keys = allCols)
    (hne : batch ≠ []) :
    (batchInsert P sfTable allCols sqlCache batch).1.Succeeds P ↔ ∀ row ∈ batch, Insertable P row := by
  have hcols : ∀ row ∈ batch.map (backfillRowToSf P), ∀ c, c ∈ row.keys ↔ c ∈ allCols := by
    intro converted hconverted c
    obtain ⟨row, hrow, rfl⟩ := List.mem_map.mp hconverted
    rw [hrows row hrow]
  have hbinds := bindable_params_iff P hcols
  simp only [List.map_map, List.forall_mem_map, Function.comp_apply] at hbinds
  rw [batchInsert_stmt hcache, Stmt.Succeeds, Stmt.Compiles, Stmt.Binds, List.forall_mem_map, hbinds]
  constructor
  · intro h row hrow
    exact ⟨(hrows row hrow).symm ▸ h.1, h.2 row hrow⟩
  · intro h
    obtain ⟨first, hfirst⟩ := List.exists_mem_of_ne_nil _ hne
    exact ⟨hrows first hfirst ▸ (h first hfirst).1, fun row hrow => (h row hrow).2⟩

end BatchInsert

/-! ### The tables -/

/-- `BACKFILL_PAGE_SIZE` and `BACKFILL_INSERT_BATCH`. -/
structure BackfillConfig where
  pageSize : ℕ
  insertBatch : ℕ
  pageSize_pos : 0 < pageSize
  insertBatch_pos : 0 < insertBatch

/-- `_TABLES`: PostgreSQL table and target table; the paging column is `id` for both. -/
def backfillTables : List (String × String) :=
  [("customers", "CUSTOMERS"), ("customer_devices", "CUSTOMER_DEVICES")]

theorem backfillTables_target_inj : ∀ t ∈ backfillTables, ∀ t' ∈ backfillTables,
    (t.1 = t'.1 ↔ t.2 = t'.2) := by
  decide

/-- Source tables that do not change while they are loaded; the rows of a table have one column list. -/
structure BackfillSource where
  rows : String → List Row
  columns : String → List String
  listed : ∀ pgTable, ∀ row ∈ rows pgTable, row.keys = columns pgTable

/-! ### The checkpoint file -/

structure Checkpoint where
  lastId : String → ℤ
  done : String → Bool

/-- `_load_checkpoint`: without a file, nothing has been loaded. -/
def loadCheckpoint : Option Checkpoint → Checkpoint
  | some cp => cp
  | none => ⟨fun _ => 0, fun _ => false⟩

/-- `cp[id_key] = last_id`. -/
def Checkpoint.setLastId (cp : Checkpoint) (pgTable : String) (lastId : ℤ) : Checkpoint :=
  { cp with lastId := Function.update cp.lastId pgTable lastId }

/-- `cp[done_key] = True`. -/
def Checkpoint.setDone (cp : Checkpoint) (pgTable : String) : Checkpoint :=
  { cp with done := Function.update cp.done pgTable true }

theorem Checkpoint.lastId_setLastId (cp : Checkpoint) (pgTable pgTable' : String) (lastId : ℤ) :
    (cp.setLastId pgTable lastId).lastId pgTable' =
      if pgTable' = pgTable then lastId else cp.lastId pgTable' :=
  Function.update_apply _ _ _ _

theorem Checkpoint.done_setDone (cp : Checkpoint) (pgTable pgTable' : String) :
    (cp.setDone pgTable).done pgTable' = if pgTable' = pgTable then true else cp.done pgTable' :=
  Function.update_apply _ _ _ _

/-- Saving the last id again changes nothing. -/
theorem Checkpoint.setLastId_self {cp : Checkpoint} {pgTable : String} {lastId : ℤ}
    (h : lastId = cp.lastId pgTable) : cp.setLastId pgTable lastId = cp := by
  rw [Checkpoint.setLastId, h, Function.update_eq_self]

/-! ### The script -/

namespace Backfill

/-- The local variables of `_backfill_table`, and the tables `main` has yet to visit. -/
structure Load where
  pgTable : String
  sfTable : String
  rest : List (String × String)
  lastId : ℤ
  sqlCache : Dict ℕ (List String)

/-- Where control is. -/
inductive Control where
  /-- No process is running. -/
  | stopped : Control
  /-- At the head of the loop over the tables. -/
  | nextTable (rest : List (String × String)) : Control
  /-- In front of the TRUNCATE. -/
  | truncating (load : Load) : Control
  /-- In front of a page query. -/
  | querying (load : Load) : Control
  /-- In the batch loop of a page; `left` is still to be inserted, and when nothing is, the checkpoint
  is saved. -/
  | inserting (load : Load) (page left : List Row) : Control
  /-- Behind the paging loop, in front of the save of the done flag. -/
  | finishing (load : Load) : Control
  /-- `main` has returned. -/
  | completed : Control

/-- Whether `main` has returned. -/
instance decidableCompleted : DecidablePred (· = Control.completed)
  | .completed => isTrue rfl
  | .stopped => isFalse nofun
  | .nextTable _ => isFalse nofun
  | .truncating _ => isFalse nofun
  | .querying _ => isFalse nofun
  | .inserting _ _ _ => isFalse nofun
  | .finishing _ => isFalse nofun

/-- A running process with its checkpoint, the checkpoint file, and the target tables. -/
structure State where
  control : Control
  cp : Checkpoint
  file : Option Checkpoint
  tables : Store

/-- Before the first run, over arbitrary tables. -/
def State.initial (tables : Store) : State := ⟨.stopped, loadCheckpoint none, none, tables⟩

/-- What the checkpoint file says. -/
def State.saved (s : State) : Checkpoint := loadCheckpoint s.file

/-- What happens next: the process goes on, `o` being the order in which a page query sorts, or it ends
where it is, by an exception or from outside. -/
inductive Input where
  | proceed (o : KeyOrder rowId) : Input
  | crash : Input

/-- `last_id` after a page: the id of its last row. -/
def pageEnd (page : List Row) (lastId : ℤ) : ℤ := (page.getLast?.map rowId).getD lastId

/-- The process goes on by one step. -/
def proceed (P : Platform) (cfg : BackfillConfig) (source : BackfillSource) (o : KeyOrder rowId)
    (s : State) : State :=
  match s.control with
  | .stopped => { s with control := .nextTable backfillTables, cp := loadCheckpoint s.file }
  | .nextTable [] => { s with control := .completed }
  | .nextTable (t :: rest) =>
    if s.cp.done t.1 then { s with control := .nextTable rest }
    else
      let load : Load := ⟨t.1, t.2, rest, s.cp.lastId t.1, ∅⟩
      { s with control := if load.lastId = 0 then .truncating load else .querying load }
  | .truncating load =>
    { s with control := .querying load, tables := Function.update s.tables load.sfTable [] }
  | .querying load =>
    let page := o.page (source.rows load.pgTable) load.lastId cfg.pageSize
    { s with control := if page.isEmpty then .finishing load else .inserting load page page }
  | .inserting load page left =>
    if left.isEmpty then
      -- the callback: `last_id` goes into the checkpoint and the checkpoint to the file
      let lastId := pageEnd page load.lastId
      let cp := s.cp.setLastId load.pgTable lastId
      { s with control := .querying { load with lastId := lastId }, cp := cp, file := some cp }
    else
      let (stmt, sqlCache) := batchInsert P load.sfTable (pageColumns P page) load.sqlCache
        (left.take cfg.insertBatch)
      if stmt.Succeeds P then
        { s with
          control := .inserting { load with sqlCache := sqlCache } page (left.drop cfg.insertBatch)
          tables := execute P lastFirstTie [stmt] s.tables }
      -- the exception ends the process where it is: `crash`
      else s
  | .finishing load =>
    let cp := (s.cp.setLastId load.pgTable load.lastId).setDone load.pgTable
    { s with control := .nextTable load.rest, cp := cp, file := some cp }
  | .completed => s

/-- The process is in front of an INSERT that raises. -/
def Raises (P : Platform) (cfg : BackfillConfig) (s : State) : Prop :=
  match s.control with
  | .inserting load page left => left ≠ [] ∧ ¬ (batchInsert P load.sfTable (pageColumns P page)
      load.sqlCache (left.take cfg.insertBatch)).1.Succeeds P
  | _ => False

/-- From there it does not go on. -/
theorem proceed_of_raises {P : Platform} {cfg : BackfillConfig} {s : State} (h : Raises P cfg s)
    (source : BackfillSource) (o : KeyOrder rowId) : proceed P cfg source o s = s := by
  obtain ⟨control, cp, file, tables⟩ := s
  cases control with
  | inserting load page left =>
    obtain ⟨hleft, hfails⟩ := h
    simp only [proceed]
    rw [if_neg (by simpa using hleft), if_neg hfails]
  | _ => exact h.elim

/-- The process ends; `main` that has returned stays so. -/
def crash (s : State) : State :=
  match s.control with
  | .completed => s
  | _ => { s with control := .stopped }

def step (P : Platform) (cfg : BackfillConfig) (source : BackfillSource) : Input → State → State
  | .proceed o => proceed P cfg source o
  | .crash => crash

/-- A history of runs. -/
def run (P : Platform) (cfg : BackfillConfig) (source : BackfillSource) (inputs : List Input)
    (s : State) : State :=
  Replay.run (step P cfg source) inputs s

end Backfill

end PgSnowflakeCdc
