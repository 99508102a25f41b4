import PgSnowflakeCdc.Scripts.Backfill
import PgSnowflakeCdc.Sink.Sequential

/-!
# A PostgreSQL table and its changes

A row reaches Snowflake on two ways: as the texts of a pgoutput tuple and as the values psycopg2 delivers
to the scripts.  `PgRow` holds both forms of a row; that its primary key is stored alike whichever way it
takes is part of the type.

* `PgTable.apply` — one row operation: the table afterwards and the change that logical decoding
  reports, with whole rows before and after it (`REPLICA IDENTITY FULL`);
* `PgTable.apply_cases` — **what an operation can do**, once and for all;
* `PgTable.apply_event` — the reported change is one of the table;
* `PgTable.untouched_of_apply` — **a row that is older than an operation is not touched by it**;
* `PgTable.rowsAt_images_apply` — an operation that keeps keys does to the images what its change does.
-/

namespace PgSnowflakeCdc

open OrderedDict KeyedRows RowNumbering

/-! ### Rows -/

/-- A row of a table that is replicated to `sfTable`. -/
structure PgRow (P : Platform) (sfTable : String) (columns : List String) where
  /-- `updated_at`, in microseconds. -/
  updatedAt : ℤ
  /-- The row as the parser reads it from a tuple. -/
  wire : Row
  /-- The row as psycopg2 delivers it. -/
  driver : Row
  wire_listed : wire.keys = columns
  driver_listed : driver.keys = columns
  keyNonNull : KeyNonNull P sfTable wire
  driver_key : rowKey P sfTable driver = rowKey P sfTable wire
  backfill_key : keyOf (pkOf sfTable) (backfillImage P sfTable driver) = rowKey P sfTable wire

namespace PgRow

variable {P : Platform} {sfTable : String} {columns : List String} (r : PgRow P sfTable columns)

/-- The primary key, as it is stored. -/
def key : List PyVal := rowKey P sfTable r.wire

/-- The row as replication stores it. -/
def image : SfRow := imageRow P sfTable r.wire

/-- The trigger that sets `updated_at`. -/
def writtenAt (now : ℤ) : PgRow P sfTable columns := { r with updatedAt := now }

@[simp] theorem key_writtenAt (now : ℤ) : (r.writtenAt now).key = r.key := rfl

theorem keyOf_image : keyOf (pkOf sfTable) r.image = r.key := rfl

/-- psycopg2 delivers the key columns of the row without a null, too. -/
theorem driver_keyNonNull : KeyNonNull P sfTable r.driver := by
  intro c hc hnull
  have hvalue : imageRow P sfTable r.driver c = .none := by
    rw [imageRow, hnull, boundValue_null]
  have hmem : PyVal.none ∈ rowKey P sfTable r.driver := List.mem_map.mpr ⟨c, hc, hvalue⟩
  rw [r.driver_key] at hmem
  exact none_notMem_rowKey r.keyNonNull hmem

end PgRow

/-! ### Operations -/

/-- What a change carries besides its rows; the relation may be a partition of the table. -/
structure Stamp (pgTable : String) where
  schema : String
  table : String
  of_table : normalizePgTable table = pgTable
  lsn : ℕ
  tsMs : ℤ
  commitLsn : ℕ

/-- The change event of a row operation. -/
def Stamp.event {pgTable : String} (stamp : Stamp pgTable) (op : Op) (before after : Option Row) :
    ChangeEvent where
  op := op
  schema := stamp.schema
  table := stamp.table
  before := before
  after := after
  lsn := stamp.lsn
  tsMs := stamp.tsMs
  commitLsn := stamp.commitLsn

/-- The table, its primary key enforced, and the clock. -/
structure PgTable (P : Platform) (sfTable : String) (columns : List String) where
  clock : ℤ
  rows : List (PgRow P sfTable columns)
  unique : (rows.map PgRow.key).Nodup

/-- A row operation, the row addressed by its key; or time passes. -/
inductive PgOp (P : Platform) (sfTable : String) (columns : List String) where
  | wait (d : ℕ) : PgOp P sfTable columns
  | insert (new : PgRow P sfTable columns) : PgOp P sfTable columns
  | update (k : List PyVal) (new : PgRow P sfTable columns) : PgOp P sfTable columns
  | delete (k : List PyVal) : PgOp P sfTable columns

/-- An update leaves the key of its row as it is. -/
def PgOp.KeepsKey {P : Platform} {sfTable : String} {columns : List String} :
    PgOp P sfTable columns → Prop
  | .update k new => new.key = k
  | _ => True

namespace PgTable

variable {P : Platform} {sfTable : String} {columns : List String} {pgTable : String}

/-- The row of a key. -/
def row? (t : PgTable P sfTable columns) (k : List PyVal) : Option (PgRow P sfTable columns) :=
  t.rows.find? fun r => r.key = k

section Unique

variable {t : PgTable P sfTable columns} {k : List PyVal}

theorem row?_isSome_iff : (t.row? k).isSome ↔ ∃ r ∈ t.rows, r.key = k := by
  rw [row?, List.find?_isSome]
  simp only [decide_eq_true_eq]

theorem row?_eq_some_iff {r : PgRow P sfTable columns} :
    t.row? k = some r ↔ r ∈ t.rows ∧ r.key = k := by
  constructor
  · intro h
    exact ⟨List.mem_of_find?_eq_some h, by simpa using List.find?_some h⟩
  · rintro ⟨hr, rfl⟩
    exact find?_key_of_mem PgRow.key t.unique hr

theorem unique_insert (new : PgRow P sfTable columns) (h : ¬ (t.row? new.key).isSome) :
    ((t.rows ++ [new]).map PgRow.key).Nodup := by
  rw [List.map_append, List.map_singleton, List.nodup_append]
  refine ⟨t.unique, List.nodup_singleton _, ?_⟩
  rintro k hk k' hk' rfl
  obtain ⟨r, hr, hkey⟩ := List.mem_map.mp hk
  exact h (row?_isSome_iff.mpr ⟨r, hr, hkey.trans (List.mem_singleton.mp hk')⟩)

theorem unique_update (new : PgRow P sfTable columns)
    (h : ¬ (new.key ≠ k ∧ (t.row? new.key).isSome)) :
    ((t.rows.map fun r => if r.key = k then new else r).map PgRow.key).Nodup := by
  rw [List.map_map]
  apply List.Nodup.map_on _ (t.unique.of_map)
  have hinj := List.inj_on_of_nodup_map t.unique
  -- a row that is kept does not have the new key, unless it is the old one
  have hkept : ∀ r ∈ t.rows, r.key ≠ k → new.key ≠ r.key := fun r hr hne hsame =>
    h ⟨fun hk => hne (hsame.symm.trans hk), row?_isSome_iff.mpr ⟨r, hr, hsame.symm⟩⟩
  intro r hr r' hr' heq
  simp only [Function.comp_apply] at heq
  split at heq
  · next hk =>
    split at heq
    · next hk' => exact hinj hr hr' (hk.trans hk'.symm)
    · next hk' => exact absurd heq (hkept r' hr' hk')
  · next hk =>
    split at heq
    · next hk' => exact absurd heq.symm (hkept r hr hk)
    · exact hinj hr hr' heq

theorem unique_delete : ((t.rows.filter fun r => r.key ≠ k).map PgRow.key).Nodup :=
  t.unique.sublist (List.filter_sublist.map _)

end Unique

/-- One operation, and the change it is reported as.  A key that is taken makes it fail; without a row
of its key it changes nothing. -/
def apply (stamp : Stamp pgTable) (t : PgTable P sfTable columns) :
    PgOp P sfTable columns → PgTable P sfTable columns × Option ChangeEvent
  | .wait d => ({ t with clock := t.clock + d }, none)
  | .insert new =>
    if h : (t.row? new.key).isSome then (t, none)
    else
      ({ t with rows := t.rows ++ [new.writtenAt t.clock], unique := unique_insert (new.writtenAt t.clock) h },
        some (stamp.event .c none (some new.wire)))
  | .update k new =>
    match t.row? k with
    | none => (t, none)
    | some old =>
      if h : new.key ≠ k ∧ (t.row? new.key).isSome then (t, none)
      else
        ({ t with
            rows := t.rows.map fun r => if r.key = k then new.writtenAt t.clock else r
            unique := unique_update (new.writtenAt t.clock) h },
          some (stamp.event .u (some old.wire) (some new.wire)))
  | .delete k =>
    match t.row? k with
    | none => (t, none)
    | some old =>
      ({ t with rows := t.rows.filter fun r => r.key ≠ k, unique := unique_delete },
        some (stamp.event .d (some old.wire) none))

/-- The table as replication stores it. -/
def images (t : PgTable P sfTable columns) : Table := t.rows.map PgRow.image

variable {stamp : Stamp pgTable} {t : PgTable P sfTable columns} {op : PgOp P sfTable columns}

variable (stamp t op) in
/-- **What an operation can do**: nothing to the rows; or insert, update or delete a row and report it. -/
theorem apply_cases :
    ((t.apply stamp op).2 = none ∧ (t.apply stamp op).1.rows = t.rows) ∨
      (∃ new : PgRow P sfTable columns, op = .insert new ∧
        (t.apply stamp op).1.rows = t.rows ++ [new.writtenAt t.clock] ∧
        (t.apply stamp op).2 = some (stamp.event .c none (some new.wire))) ∨
      (∃ old ∈ t.rows, ∃ new : PgRow P sfTable columns, op = .update old.key new ∧
        (t.apply stamp op).1.rows =
          (t.rows.map fun r => if r.key = old.key then new.writtenAt t.clock else r) ∧
        (t.apply stamp op).2 = some (stamp.event .u (some old.wire) (some new.wire))) ∨
      ∃ old ∈ t.rows, op = .delete old.key ∧
        (t.apply stamp op).1.rows = (t.rows.filter fun r => r.key ≠ old.key) ∧
        (t.apply stamp op).2 = some (stamp.event .d (some old.wire) none) := by
  cases op with
  | wait d => exact Or.inl ⟨rfl, rfl⟩
  | insert new =>
    rw [apply]
    split
    · exact Or.inl ⟨rfl, rfl⟩
    · exact Or.inr (Or.inl ⟨new, rfl, rfl, rfl⟩)
  | update k new =>
    rw [apply]
    cases hrow : t.row? k with
    | none => exact Or.inl ⟨rfl, rfl⟩
    | some old =>
      obtain ⟨hold, rfl⟩ := row?_eq_some_iff.mp hrow
      dsimp only
      split
      · exact Or.inl ⟨rfl, rfl⟩
      · exact Or.inr (Or.inr (Or.inl ⟨old, hold, new, rfl, rfl, rfl⟩))
  | delete k =>
    rw [apply]
    cases hrow : t.row? k with
    | none => exact Or.inl ⟨rfl, rfl⟩
    | some old =>
      obtain ⟨hold, rfl⟩ := row?_eq_some_iff.mp hrow
      exact Or.inr (Or.inr (Or.inr ⟨old, hold, rfl, rfl, rfl⟩))

/-- The clock does not go back. -/
theorem clock_le_apply : t.clock ≤ (t.apply stamp op).1.clock := by
  cases op with
  | wait d => exact Int.le_add_of_nonneg_right (Int.natCast_nonneg d)
  | insert new =>
    rw [apply]
    split <;> exact le_rfl
  | update k new =>
    rw [apply]
    cases t.row? k with
    | none => exact le_rfl
    | some old =>
      dsimp only
      split <;> exact le_rfl
  | delete k =>
    rw [apply]
    cases t.row? k <;> exact le_rfl

/-- A row written now is not an older one. -/
theorem key_writtenAt_ne {t' : PgTable P sfTable columns} {new r : PgRow P sfTable columns}
    (hnew : new.writtenAt t.clock ∈ t'.rows) (hr : r ∈ t'.rows) (hold : r.updatedAt < t.clock) :
    new.key ≠ r.key := by
  intro hkey
  have hsame : new.writtenAt t.clock = r := List.inj_on_of_nodup_map t'.unique hnew hr hkey
  rw [← hsame] at hold
  exact lt_irrefl _ hold

/-- **What was written before an operation and is still there has not been touched by it.** -/
theorem untouched_of_apply {r : PgRow P sfTable columns} (hr : r ∈ (t.apply stamp op).1.rows)
    (hold : r.updatedAt < t.clock) :
    r ∈ t.rows ∧ ∀ e ∈ (t.apply stamp op).2, changeKey P sfTable e ≠ r.key := by
  rcases t.apply_cases stamp op with ⟨hnone, hrows⟩ | ⟨new, -, hrows, hop⟩ |
    ⟨old, hmem, new, -, hrows, hop⟩ | ⟨old, -, -, hrows, hop⟩
  · rw [hnone]
    rw [hrows] at hr
    exact ⟨hr, nofun⟩
  · have hnew : new.writtenAt t.clock ∈ (t.apply stamp op).1.rows := by
      rw [hrows]
      exact List.mem_append_right _ (List.mem_singleton_self _)
    have hne := key_writtenAt_ne hnew hr hold
    rw [hop]
    rw [hrows, List.mem_append, List.mem_singleton] at hr
    refine ⟨hr.resolve_right fun hsame => hne (hsame ▸ rfl), ?_⟩
    rintro e ⟨⟩
    exact hne
  · have hnew : new.writtenAt t.clock ∈ (t.apply stamp op).1.rows := by
      rw [hrows]
      exact List.mem_map.mpr ⟨old, hmem, if_pos rfl⟩
    have hne := key_writtenAt_ne hnew hr hold
    rw [hop]
    rw [hrows, List.mem_map] at hr
    obtain ⟨x, hx, hxr⟩ := hr
    split at hxr
    · exact absurd (congrArg PgRow.key hxr) hne
    · refine ⟨hxr ▸ hx, ?_⟩
      rintro e ⟨⟩
      exact hne
  · rw [hop]
    rw [hrows, List.mem_filter, decide_eq_true_eq] at hr
    refine ⟨hr.1, ?_⟩
    rintro e ⟨⟩
    exact Ne.symm hr.2

/-- An event whose image is a row of the table is a change of the table. -/
theorem event_ofTable (stamp : Stamp pgTable) (o : Op) {before after : Option Row}
    (r : PgRow P sfTable columns) (himage : (stamp.event o before after).image = some r.wire) :
    (stamp.event o before after).OfTable P pgTable sfTable columns :=
  ⟨stamp.of_table, r.wire, himage, r.wire_listed, r.keyNonNull⟩

/-- **The reported change is one of the table**, whole rows with a non-null key. -/
theorem apply_event {e : ChangeEvent} (h : (t.apply stamp op).2 = some e) :
    e.OfTable P pgTable sfTable columns := by
  rcases t.apply_cases stamp op with ⟨hnone, -⟩ | ⟨new, -, -, hop⟩ | ⟨old, -, new, -, -, hop⟩ |
    ⟨old, -, -, -, hop⟩
  · rw [hnone] at h
    cases h
  · rw [hop] at h
    rw [← Option.some.inj h]
    exact event_ofTable stamp .c new rfl
  · rw [hop] at h
    rw [← Option.some.inj h]
    exact event_ofTable stamp .u new rfl
  · rw [hop] at h
    rw [← Option.some.inj h]
    exact event_ofTable stamp .d old rfl

theorem mem_images_at {k : List PyVal} {x : SfRow} :
    x ∈ rowsAt (keyOf (pkOf sfTable)) k t.images ↔ ∃ f ∈ t.rows, f.key = k ∧ f.image = x := by
  rw [mem_rowsAt, images, List.mem_map]
  constructor
  · rintro ⟨⟨f, hf, rfl⟩, hkey⟩
    exact ⟨f, hf, hkey, rfl⟩
  · rintro ⟨f, hf, hkey, rfl⟩
    exact ⟨⟨f, hf, rfl⟩, hkey⟩

theorem rowsAt_images_ne_nil_iff {k : List PyVal} :
    rowsAt (keyOf (pkOf sfTable)) k t.images ≠ [] ↔ ∃ r ∈ t.rows, r.key = k := by
  constructor
  · intro hne
    obtain ⟨x, hx⟩ := List.exists_mem_of_ne_nil _ hne
    obtain ⟨r, hr, hkey, -⟩ := mem_images_at.mp hx
    exact ⟨r, hr, hkey⟩
  · rintro ⟨r, hr, hkey⟩
    exact List.ne_nil_of_mem (mem_images_at.mpr ⟨r, hr, hkey, rfl⟩)

/-- A key has the image of its row. -/
theorem rowsAt_images (k : List PyVal) :
    rowsAt (keyOf (pkOf sfTable)) k t.images = (t.row? k).toList.map PgRow.image := by
  rw [row?, ← rowsAt_of_uniqueKeys PgRow.key t.unique, rowsAt, images, List.filter_map]
  rfl

/-! ### Operations as changes of a partial map -/

section Rows

variable {t' : PgTable P sfTable columns} {new old : PgRow P sfTable columns} (k : List PyVal)

theorem row?_of_rows_eq (h : t'.rows = t.rows) : t'.row? k = t.row? k := by
  rw [row?, row?, h]

theorem row?_of_insert (h : t'.rows = t.rows ++ [new]) :
    t'.row? k = if new.key = k then some new else t.row? k := by
  apply Option.ext
  intro r
  have hfresh : ∀ x ∈ t.rows, x.key ≠ new.key := by
    have hunique := t'.unique
    rw [h, List.map_append, List.nodup_append] at hunique
    exact fun x hx => hunique.2.2 _ (List.mem_map_of_mem hx) _ (List.mem_singleton_self _)
  rw [row?_eq_some_iff, h, List.mem_append, List.mem_singleton]
  split
  · next hk =>
    subst hk
    rw [Option.some.injEq]
    constructor
    · rintro ⟨hr | rfl, hkey⟩
      · exact absurd hkey (hfresh r hr)
      · rfl
    · rintro rfl
      exact ⟨Or.inr rfl, rfl⟩
  · next hk =>
    rw [row?_eq_some_iff]
    constructor
    · rintro ⟨hr | rfl, hkey⟩
      · exact ⟨hr, hkey⟩
      · exact absurd hkey hk
    · rintro ⟨hr, hkey⟩
      exact ⟨Or.inl hr, hkey⟩

theorem row?_of_update (hold : old ∈ t.rows)
    (h : t'.rows = t.rows.map fun r => if r.key = old.key then new else r) :
    t'.row? k = if new.key = k then some new else if old.key = k then none else t.row? k := by
  have hmem : new ∈ t'.rows := by
    rw [h]
    exact List.mem_map.mpr ⟨old, hold, if_pos rfl⟩
  split
  · next hk => exact row?_eq_some_iff.mpr ⟨hmem, hk⟩
  · next hk =>
    apply Option.ext
    intro r
    -- what the new table has at `k` is a row that was kept
    have hkept : r ∈ t'.rows ∧ r.key = k ↔ (r ∈ t.rows ∧ r.key = k) ∧ old.key ≠ k := by
      rw [h, List.mem_map]
      constructor
      · rintro ⟨⟨x, hx, hxr⟩, hkey⟩
        split at hxr
        · exact absurd ((congrArg PgRow.key hxr).trans hkey) hk
        · next hne =>
          subst hxr
          exact ⟨⟨hx, hkey⟩, fun hold => hne (hkey.trans hold.symm)⟩
      · rintro ⟨⟨hr, hkey⟩, hne⟩
        exact ⟨⟨r, hr, if_neg fun hsame => hne (hsame.symm.trans hkey)⟩, hkey⟩
    rw [row?_eq_some_iff, hkept]
    split
    · next hsame => simp [hsame]
    · next hne =>
      rw [row?_eq_some_iff]
      exact and_iff_left hne

theorem row?_of_delete (h : t'.rows = t.rows.filter fun r => r.key ≠ old.key) :
    t'.row? k = if old.key = k then none else t.row? k := by
  apply Option.ext
  intro r
  rw [row?_eq_some_iff, h, List.mem_filter, decide_eq_true_eq]
  split
  · next hk =>
    subst hk
    exact iff_of_false (fun hmem => hmem.1.2 hmem.2) nofun
  · next hk =>
    rw [row?_eq_some_iff]
    constructor
    · rintro ⟨⟨hr, -⟩, hkey⟩
      exact ⟨hr, hkey⟩
    · rintro ⟨hr, hkey⟩
      exact ⟨⟨hr, fun hsame => hk (hsame.symm.trans hkey)⟩, hkey⟩

end Rows

/-- A row that takes the columns of another row of the table becomes its image. -/
theorem overlay_image (new old : PgRow P sfTable columns) :
    overlay (assignment P sfTable new.wire) old.image = new.image := by
  apply overlay_assignment
  intro c hc
  apply imageRow_of_notMem
  rwa [mem_keys_rowToSf, old.wire_listed, ← new.wire_listed, ← mem_keys_rowToSf]

/-- What a change with the image of `new` does at its key. -/
theorem act_upsert (new : PgRow P sfTable columns) (old : Option (PgRow P sfTable columns)) :
    (RowOp.assign (assignment P sfTable new.wire)).act .none (old.toList.map PgRow.image) =
      [new.image] := by
  cases old with
  | none => exact congrArg (fun x => [x]) (overlay_assignment fun c _ => rfl)
  | some old => exact congrArg (fun x => [x]) (overlay_image new old)

/-- **An operation that keeps keys, seen through its change**: the images afterwards are the images
before it with the change applied. -/
theorem rowsAt_images_apply (hkeeps : op.KeepsKey) (k : List PyVal) :
    rowsAt (keyOf (pkOf sfTable)) k (t.apply stamp op).1.images =
      runOps .none ((t.apply stamp op).2.toList.map (changeOp P sfTable k))
        (rowsAt (keyOf (pkOf sfTable)) k t.images) := by
  rw [rowsAt_images, rowsAt_images]
  rcases t.apply_cases stamp op with ⟨hnone, hrows⟩ | ⟨new, -, hrows, hop⟩ |
    ⟨old, hold, new, hupdate, hrows, hop⟩ | ⟨old, hold, -, hrows, hop⟩
  · rw [hnone, row?_of_rows_eq k hrows]
    rfl
  · rw [hop, row?_of_insert k hrows, PgRow.key_writtenAt]
    show _ = (if new.key = k then RowOp.assign (assignment P sfTable new.wire) else .keep).act _ _
    by_cases hk : new.key = k
    · rw [if_pos hk, if_pos hk, act_upsert]
      rfl
    · rw [if_neg hk, if_neg hk]
      rfl
  · have hsame : new.key = old.key := by
      rw [hupdate] at hkeeps
      exact hkeeps
    rw [hop, row?_of_update k hold hrows, PgRow.key_writtenAt]
    show _ = (if new.key = k then RowOp.assign (assignment P sfTable new.wire) else .keep).act _ _
    by_cases hk : new.key = k
    · rw [if_pos hk, if_pos hk, act_upsert]
      rfl
    · rw [if_neg hk, if_neg hk, if_neg fun hold => hk (hsame.trans hold)]
      rfl
  · rw [hop, row?_of_delete k hrows]
    show _ = (if old.key = k then RowOp.remove else .keep).act _ _
    by_cases hk : old.key = k
    · rw [if_pos hk, if_pos hk]
      rfl
    · rw [if_neg hk, if_neg hk]
      rfl

end PgTable

/-! ### Sample rows -/

/-- A row of `customers` in the text form of pgoutput, or with an integer id as psycopg2 delivers it. -/
def customerCells (id : PyVal) (status : String) : Row :=
  ⟨[("id", id), ("tenant_id", .str "acme"), ("status", .str status)], by simp⟩

/-- A customer on the free plan. -/
def freeCustomer : PgRow .ascii "CUSTOMERS" ["id", "tenant_id", "status"] where
  updatedAt := 10
  wire := customerCells (.str "1") "free"
  driver := customerCells (.int 1) "free"
  wire_listed := rfl
  driver_listed := rfl
  keyNonNull := by decide +kernel
  driver_key := by decide +kernel
  backfill_key := by decide +kernel

/-- The same customer on the paid plan. -/
def paidCustomer : PgRow .ascii "CUSTOMERS" ["id", "tenant_id", "status"] where
  updatedAt := 20
  wire := customerCells (.str "1") "paid"
  driver := customerCells (.int 1) "paid"
  wire_listed := rfl
  driver_listed := rfl
  keyNonNull := by decide +kernel
  driver_key := by decide +kernel
  backfill_key := by decide +kernel

/-- Another customer. -/
def otherCustomer : PgRow .ascii "CUSTOMERS" ["id", "tenant_id", "status"] where
  updatedAt := 10
  wire := customerCells (.str "2") "free"
  driver := customerCells (.int 2) "free"
  wire_listed := rfl
  driver_listed := rfl
  keyNonNull := by decide +kernel
  driver_key := by decide +kernel
  backfill_key := by decide +kernel

/-- A change of `customers`. -/
def customerStamp (lsn : ℕ) : Stamp "customers" := ⟨"public", "customers", by decide, lsn, 0, lsn⟩

end PgSnowflakeCdc
