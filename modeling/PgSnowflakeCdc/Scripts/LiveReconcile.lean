import PgSnowflakeCdc.Scripts.Reconcile
import PgSnowflakeCdc.Sink.Attempts
import PgSnowflakeCdc.Source.PgTable

/-!
# A reconciliation beside the running service

`reconcile.py` reads the rows of a table at one time and writes them later, chunk by chunk, while the
table changes and the service applies the changes one by one.

* `LiveReconcile.step`, `LiveReconcile.run` — the source table, the slot, the service and the script;
* `writes` — what a run writes, in order: changes and chunks;
* `rowsAt_run` — **the table after a run, key by key, from what the run has written**;
* `service_follows` — the service alone ends with the table of the source;
* `Harmless` — every row of every chunk is either still the row of its key at the end, or a change of its
  key is written after it;
* `reconcile_keeps_table_iff` — **the reconciliation leaves the table as the service alone would leave it
  exactly when it is harmless.**
-/

namespace PgSnowflakeCdc

open OrderedDict RowNumbering KeyedRows

namespace LiveReconcile

/-! ### The machine -/

/-- The source table; the changes in the slot and those the service has polled; the rows the script has
yet to fetch, once its query has run; and the tables. -/
structure State (P : Platform) (sfCurrent : String) (columns : List String) where
  source : PgTable P sfCurrent columns
  slot : List ChangeEvent
  polled : List ChangeEvent
  cursor : Option (List (PgRow P sfCurrent columns))
  tables : Store

/-- What happens next: a row operation; a poll that hands out some changes; the flush of the next one;
the query of the script, or its next chunk. -/
inductive Input (P : Platform) (pgTable sfCurrent : String) (columns : List String) where
  | op (stamp : Stamp pgTable) (op : PgOp P sfCurrent columns) : Input P pgTable sfCurrent columns
  | poll (n : ℕ) : Input P pgTable sfCurrent columns
  | flush (env : CallEnv) : Input P pgTable sfCurrent columns
  | read (o : Paging.KeyOrder fun r : PgRow P sfCurrent columns => rowId r.driver) :
    Input P pgTable sfCurrent columns
  | merge (o : RowOrder) : Input P pgTable sfCurrent columns

/-- `--since` and `RECONCILE_BATCH_SIZE`. -/
structure ReconcileArgs where
  since : ℤ
  batch : ℕ

section Machine

variable {P : Platform} {pgTable sfCurrent : String} {columns : List String}

/-- An empty slot, and a script that has not started. -/
def State.start (source : PgTable P sfCurrent columns) (tables : Store) :
    State P sfCurrent columns :=
  ⟨source, [], [], none, tables⟩

/-- `cur.fetchmany(_BATCH)`. -/
def State.fetched (args : ReconcileArgs) (s : State P sfCurrent columns) :
    List (PgRow P sfCurrent columns) :=
  (s.cursor.getD []).take args.batch

/-- One step. -/
def step (cfg : Config) (args : ReconcileArgs) (s : State P sfCurrent columns) :
    Input P pgTable sfCurrent columns → State P sfCurrent columns
  | .op stamp op =>
    let (source, change) := s.source.apply stamp op
    { s with source := source, slot := s.slot ++ change.toList }
  | .poll n => { s with slot := s.slot.drop n, polled := s.polled ++ s.slot.take n }
  | .flush env =>
    match s.polled with
    | [] => s
    | e :: rest =>
      { s with
        polled := rest
        tables := applyWrites P (SnowflakeSink.flush cfg ⟨[e.normalized], 0⟩ env).writes s.tables }
  | .read o =>
    match s.cursor with
    | some _ => s
    -- `WHERE updated_at >= since ORDER BY id`
    | none => { s with cursor := some (o.sort (s.source.rows.filter fun r => args.since ≤ r.updatedAt)) }
  | .merge o =>
    match s.fetched args with
    | [] => s
    | first :: rest =>
      { s with
        cursor := s.cursor.map (List.drop args.batch)
        tables := (chunkMerge P sfCurrent first.driver (rest.map PgRow.driver)).apply P o s.tables }

/-- The state after some inputs. -/
def run (cfg : Config) (args : ReconcileArgs) (inputs : List (Input P pgTable sfCurrent columns))
    (s : State P sfCurrent columns) : State P sfCurrent columns :=
  Replay.run (fun i s => step cfg args s i) inputs s

/-- The flushes of the input succeed. -/
def Input.Succeeds (cfg : Config) : Input P pgTable sfCurrent columns → Prop
  | .flush env => env.Succeeds cfg
  | _ => True

/-- The input is none of the script's. -/
def Input.isService : Input P pgTable sfCurrent columns → Bool
  | .op _ _ => true
  | .poll _ => true
  | .flush _ => true
  | .read _ => false
  | .merge _ => false

/-! ### What is written -/

/-- A change that the service writes, or a chunk that the script writes, with the row order of its
MERGE. -/
inductive Write (P : Platform) (sfCurrent : String) (columns : List String) where
  | change (e : ChangeEvent) : Write P sfCurrent columns
  | chunk (o : RowOrder) (rows : List (PgRow P sfCurrent columns)) : Write P sfCurrent columns

def Write.isChange : Write P sfCurrent columns → Bool
  | .change _ => true
  | .chunk _ _ => false

/-- The rows of a chunk. -/
def Write.rows : Write P sfCurrent columns → List (PgRow P sfCurrent columns)
  | .change _ => []
  | .chunk _ rows => rows

/-- What a step writes. -/
def State.write (args : ReconcileArgs) (s : State P sfCurrent columns) :
    Input P pgTable sfCurrent columns → List (Write P sfCurrent columns)
  | .flush _ => (s.polled.take 1).map .change
  | .merge o => if (s.fetched args).isEmpty then [] else [.chunk o (s.fetched args)]
  | _ => []

/-- What a run writes, in order. -/
def writes (cfg : Config) (args : ReconcileArgs) :
    List (Input P pgTable sfCurrent columns) → State P sfCurrent columns →
    List (Write P sfCurrent columns)
  | [], _ => []
  | i :: inputs, s => s.write args i ++ writes cfg args inputs (step cfg args s i)

/-- What a write does at a key. -/
def Write.opAt (k : List PyVal) : Write P sfCurrent columns → RowOp String PyVal
  | .change e => changeOp P sfCurrent k e
  | .chunk _ [] => .keep
  | .chunk o (first :: rest) =>
    (chunkMerge P sfCurrent first.driver (rest.map PgRow.driver)).opAt P (fun _ => o) sfCurrent k

/-- Changes of the table only. -/
def ChangesOf (pgTable : String) (ws : List (Write P sfCurrent columns)) : Prop :=
  ∀ e, .change e ∈ ws → e.OfTable P pgTable sfCurrent columns

end Machine

/-! ### The table after a run -/

section Runs

variable {P : Platform} {pgTable sfCurrent sfHistory : String} {columns : List String}
  {cfg : Config} {args : ReconcileArgs} {s s' : State P sfCurrent columns}

/-- What is in the slot and what is polled are changes of the table. -/
def Tracked (pgTable : String) (s : State P sfCurrent columns) : Prop :=
  ∀ e ∈ s.slot ++ s.polled, e.OfTable P pgTable sfCurrent columns

theorem Tracked.step (h : Tracked pgTable s) (i : Input P pgTable sfCurrent columns) :
    Tracked pgTable (step cfg args s i) := by
  intro e he
  cases i with
  | op stamp op =>
    rw [LiveReconcile.step, List.append_assoc, List.mem_append, List.mem_append] at he
    rcases he with hslot | hnew | hpolled
    · exact h e (List.mem_append_left _ hslot)
    · exact PgTable.apply_event (Option.mem_toList.mp hnew)
    · exact h e (List.mem_append_right _ hpolled)
  | poll n =>
    rw [LiveReconcile.step, List.mem_append, List.mem_append] at he
    rcases he with hleft | hpolled | htaken
    · exact h e (List.mem_append_left _ (List.mem_of_mem_drop hleft))
    · exact h e (List.mem_append_right _ hpolled)
    · exact h e (List.mem_append_left _ (List.mem_of_mem_take htaken))
  | flush env =>
    rw [LiveReconcile.step] at he
    split at he
    · exact h e he
    · next hpolled =>
      apply h e
      rw [hpolled]
      exact (List.mem_append.mp he).elim (List.mem_append_left _)
        fun hmem => List.mem_append_right _ (List.mem_cons_of_mem _ hmem)
  | read o =>
    rw [LiveReconcile.step] at he
    split at he <;> exact h e he
  | merge o =>
    rw [LiveReconcile.step] at he
    split at he <;> exact h e he

variable (cfg args) in
/-- The changes a run writes are changes of the table. -/
theorem changesOf_writes (inputs : List (Input P pgTable sfCurrent columns)) (h : Tracked pgTable s) :
    ChangesOf pgTable (writes cfg args inputs s) := by
  induction inputs generalizing s with
  | nil => exact fun e he => absurd he List.not_mem_nil
  | cons i inputs ih =>
    intro e he
    rw [writes, List.mem_append] at he
    rcases he with he | he
    · cases i with
      | flush env =>
        obtain ⟨e', he', heq⟩ := List.mem_map.mp he
        rw [← Write.change.inj heq]
        exact h e' (List.mem_append_right _ (List.mem_of_mem_take he'))
      | merge o =>
        rw [State.write] at he
        split at he
        · cases he
        · cases List.mem_singleton.mp he
      | _ => cases he
    · exact ih (h.step i) e he

variable (hmap : tableMap.get? pgTable = some (sfCurrent, sfHistory))

include hmap

/-- **One step at a key.** -/
theorem rowsAt_step (h : Tracked pgTable s) {i : Input P pgTable sfCurrent columns}
    (hok : i.Succeeds cfg) (k : List PyVal) :
    rowsAt (keyOf (pkOf sfCurrent)) k ((step cfg args s i).tables sfCurrent) =
      runOps .none ((s.write args i).map (Write.opAt k))
        (rowsAt (keyOf (pkOf sfCurrent)) k (s.tables sfCurrent)) := by
  cases i with
  | op stamp op => rfl
  | poll n => rfl
  | flush env =>
    rw [step, State.write]
    cases hpolled : s.polled with
    | nil => rfl
    | cons e rest =>
      have he := h e (List.mem_append_right _ (by rw [hpolled]; exact List.mem_cons_self))
      exact rowsAt_flushOne hmap hok he 0 s.tables k
  | read o =>
    rw [step]
    split <;> rfl
  | merge o =>
    rw [step, State.write]
    cases hfetched : s.fetched args with
    | nil => rfl
    | cons first rest =>
      have hkeys : ∀ row ∈ first.driver :: rest.map PgRow.driver, KeyNonNull P sfCurrent row := by
        rw [← List.map_cons]
        intro row hrow
        obtain ⟨r, -, rfl⟩ := List.mem_map.mp hrow
        exact r.driver_keyNonNull
      exact @rowsAt_apply P (fun _ => o) _ sfCurrent (keyedOn_chunkMerge hkeys sfCurrent) k s.tables

variable (args) in
/-- **A run at a key.** -/
theorem rowsAt_run {inputs : List (Input P pgTable sfCurrent columns)} (h : Tracked pgTable s)
    (hok : ∀ i ∈ inputs, i.Succeeds cfg) (k : List PyVal) :
    rowsAt (keyOf (pkOf sfCurrent)) k ((run cfg args inputs s).tables sfCurrent) =
      runOps .none ((writes cfg args inputs s).map (Write.opAt k))
        (rowsAt (keyOf (pkOf sfCurrent)) k (s.tables sfCurrent)) := by
  induction inputs generalizing s with
  | nil => rfl
  | cons i inputs ih =>
    rw [writes, List.map_append, runOps_append,
      ← rowsAt_step hmap h (hok i List.mem_cons_self) k]
    exact ih (h.step i) fun i' hi' => hok i' (List.mem_cons_of_mem _ hi')

omit hmap

/-- The source and the service are in the same state. -/
def SameService (s s' : State P sfCurrent columns) : Prop :=
  s'.source = s.source ∧ s'.slot = s.slot ∧ s'.polled = s.polled

variable (cfg args) in
theorem SameService.step (h : SameService s s') (i : Input P pgTable sfCurrent columns) :
    SameService (step cfg args s i) (if i.isService then step cfg args s' i else s') := by
  obtain ⟨hsource, hslot, hpolled⟩ := h
  cases i with
  | op stamp op =>
    refine ⟨?_, ?_, hpolled⟩
    · show (s'.source.apply stamp op).1 = (s.source.apply stamp op).1
      rw [hsource]
    · show s'.slot ++ (s'.source.apply stamp op).2.toList = _
      rw [hsource, hslot]
      rfl
  | poll n =>
    refine ⟨hsource, ?_, ?_⟩
    · show s'.slot.drop n = s.slot.drop n
      rw [hslot]
    · show s'.polled ++ s'.slot.take n = s.polled ++ s.slot.take n
      rw [hslot, hpolled]
  | flush env =>
    rw [Input.isService, if_pos rfl, LiveReconcile.step, LiveReconcile.step, hpolled]
    split
    · next hnil => exact ⟨hsource, hslot, hpolled⟩
    · exact ⟨hsource, hslot, rfl⟩
  | read o =>
    rw [LiveReconcile.step]
    split <;> exact ⟨hsource, hslot, hpolled⟩
  | merge o =>
    rw [LiveReconcile.step]
    split <;> exact ⟨hsource, hslot, hpolled⟩

variable (cfg args) in
/-- **Without the script a run writes the same changes**, and the source and the service end the same. -/
theorem writes_service (inputs : List (Input P pgTable sfCurrent columns)) (h : SameService s s') :
    writes cfg args (inputs.filter (·.isService)) s' =
        (writes cfg args inputs s).filter (·.isChange) ∧
      SameService (run cfg args inputs s) (run cfg args (inputs.filter (·.isService)) s') := by
  induction inputs generalizing s s' with
  | nil => exact ⟨rfl, h⟩
  | cons i inputs ih =>
    have hnext := h.step cfg args i
    rw [writes, List.filter_append]
    cases hi : i.isService with
    | true =>
      rw [hi, if_pos rfl] at hnext
      obtain ⟨hwrites, hsame⟩ := ih hnext
      rw [List.filter_cons_of_pos (by simpa using hi), writes, hwrites]
      refine ⟨?_, hsame⟩
      congr 1
      cases i with
      | flush env =>
        rw [State.write, State.write, h.2.2, List.filter_map]
        cases s.polled <;> rfl
      | op stamp op => rfl
      | poll n => rfl
      | read o => cases hi
      | merge o => cases hi
    | false =>
      rw [hi, if_neg Bool.false_ne_true] at hnext
      obtain ⟨hwrites, hsame⟩ := ih hnext
      rw [List.filter_cons_of_neg (by simpa using hi), hwrites]
      refine ⟨?_, hsame⟩
      have hnone : (s.write args i).filter (·.isChange) = [] := by
        cases i with
        | flush env => cases hi
        | op stamp op => cases hi
        | poll n => cases hi
        | read o => rfl
        | merge o =>
          rw [State.write]
          split <;> rfl
      rw [hnone, List.nil_append]

end Runs

/-! ### Harmless chunks -/

section Chunks

variable {P : Platform} {pgTable sfCurrent : String} {columns : List String}
  {final : PgTable P sfCurrent columns} {ws : List (Write P sfCurrent columns)} {k : List PyVal}

/-- The key of the row is in the table, with the values that were read. -/
def Current (final : PgTable P sfCurrent columns) (r : PgRow P sfCurrent columns) : Prop :=
  ∃ f ∈ final.rows, f.key = r.key ∧
    ∀ c ∈ (rowToSf P r.driver).keys, imageRow P sfCurrent r.driver c = f.image c

/-- Every row of every chunk is still the row of its key in the final table, or a change of its key is
written later. -/
def Harmless (final : PgTable P sfCurrent columns) : List (Write P sfCurrent columns) → Prop
  | [] => True
  | .change _ :: ws => Harmless final ws
  | .chunk _ rows :: ws =>
    (∀ r ∈ rows, Current final r ∨ ∃ e, Write.change e ∈ ws ∧ changeKey P sfCurrent e = r.key) ∧
      Harmless final ws

/-- The change of a write. -/
def Write.event? : Write P sfCurrent columns → Option ChangeEvent
  | .change e => some e
  | .chunk _ _ => none

theorem exists_change_iff :
    (∃ e, Write.change e ∈ ws ∧ changeKey P sfCurrent e = k) ↔
      k ∈ (ws.filterMap Write.event?).map (changeKey P sfCurrent) := by
  rw [List.mem_map]
  apply exists_congr
  intro e
  rw [List.mem_filterMap]
  apply and_congr_left'
  constructor
  · exact fun he => ⟨_, he, rfl⟩
  · rintro ⟨w, hw, hevent⟩
    cases w with
    | change e' => exact Option.some.inj hevent ▸ hw
    | chunk o rows => cases hevent

instance decidableHarmless (final : PgTable P sfCurrent columns) :
    ∀ ws, Decidable (Harmless final ws)
  | [] => isTrue trivial
  | .change _ :: ws => decidableHarmless final ws
  | .chunk _ rows :: ws =>
    have : ∀ r : PgRow P sfCurrent columns,
        Decidable (∃ e, Write.change e ∈ ws ∧ changeKey P sfCurrent e = r.key) :=
      fun _ => decidable_of_iff _ exists_change_iff.symm
    have : ∀ r : PgRow P sfCurrent columns, Decidable (Current final r) :=
      fun _ => inferInstanceAs (Decidable (∃ f ∈ final.rows, _ ∧ _))
    have := decidableHarmless final ws
    inferInstanceAs (Decidable ((∀ r ∈ rows, _ ∨ _) ∧ Harmless final ws))

/-- What a chunk does at a key. -/
theorem opAt_chunk (o : RowOrder) (rows : List (PgRow P sfCurrent columns)) (k : List PyVal) :
    ((∀ r ∈ rows, r.key ≠ k) ∧ (Write.chunk o rows).opAt k = .keep) ∨
      ∃ r ∈ rows, r.key = k ∧
        (Write.chunk o rows).opAt k = .assign (assignment P sfCurrent r.driver) := by
  cases rows with
  | nil => exact Or.inl ⟨fun r hr => absurd hr List.not_mem_nil, rfl⟩
  | cons first rest =>
    have hlisted : ∀ row ∈ first.driver :: rest.map PgRow.driver, row.keys = columns := by
      rw [← List.map_cons]
      intro row hrow
      obtain ⟨r, -, rfl⟩ := List.mem_map.mp hrow
      exact r.driver_listed
    rw [Write.opAt]
    rcases opAt_chunkMerge sfCurrent hlisted (fun _ => o) k with ⟨hfree, hop⟩ |
      ⟨row, hrow, hkey, hop⟩
    · refine Or.inl ⟨fun r hr hkey => ?_, hop⟩
      have hmem : r.driver ∈ first.driver :: rest.map PgRow.driver := by
        rw [← List.map_cons]
        exact List.mem_map_of_mem hr
      exact hfree r.driver hmem (r.driver_key.trans hkey)
    · rw [← List.map_cons] at hrow
      obtain ⟨r, hr, rfl⟩ := List.mem_map.mp hrow
      exact Or.inr ⟨r, hr, r.driver_key.symm.trans hkey, hop⟩

/-- Writes that do not touch the key do nothing at it. -/
theorem runOps_free (hchanges : ∀ e, Write.change e ∈ ws → changeKey P sfCurrent e ≠ k)
    (hrows : ∀ r ∈ ws.flatMap Write.rows, r.key ≠ k) (rows : List SfRow) :
    runOps .none (ws.map (Write.opAt k)) rows = rows := by
  induction ws generalizing rows with
  | nil => rfl
  | cons w ws ih =>
    have hkeep : w.opAt k = .keep := by
      cases w with
      | change e => exact if_neg (hchanges e List.mem_cons_self)
      | chunk o chunk =>
        rcases opAt_chunk o chunk k with ⟨-, hop⟩ | ⟨r, hr, hkey, -⟩
        · exact hop
        · exact absurd hkey (hrows r (List.mem_flatMap.mpr ⟨_, List.mem_cons_self, hr⟩))
    rw [List.map_cons, runOps_cons, hkeep]
    exact ih (fun e he => hchanges e (List.mem_cons_of_mem _ he))
      (fun r hr => hrows r (by rw [List.flatMap_cons]; exact List.mem_append_right _ hr)) rows

/-- A change of a key does something there, and assigns no fewer columns than a row has. -/
theorem changeOp_ne_keep {e : ChangeEvent} (he : e.OfTable P pgTable sfCurrent columns)
    (hkey : changeKey P sfCurrent e = k) : changeOp P sfCurrent k e ≠ .keep := by
  obtain ⟨row, himage, -, -⟩ := he.image
  rw [changeOp, if_pos hkey]
  cases hup : e.isUpsert with
  | true => simp [ownOp_of_upsert himage hup]
  | false => simp [ownOp_of_delete himage hup]

theorem columns_of_changeOp {e : ChangeEvent} (he : e.OfTable P pgTable sfCurrent columns)
    {b : String → Option PyVal} (hop : changeOp P sfCurrent k e = .assign b) {row : Row}
    (hrow : row.keys = columns) {c : String} (hc : b c = none) :
    assignment P sfCurrent row c = none := by
  obtain ⟨row', himage, hkeys, -⟩ := he.image
  rw [changeOp] at hop
  split at hop
  · cases hup : e.isUpsert with
    | true =>
      rw [ownOp_of_upsert himage hup, RowOp.assign.injEq] at hop
      rw [← hop] at hc
      exact assignment_eq_none_of_keys (hkeys.trans hrow.symm) hc
    | false =>
      rw [ownOp_of_delete himage hup] at hop
      cases hop
  · cases hop

/-- Assigning the values of a row that is current to the rows of its key changes nothing. -/
theorem act_assign_current {r : PgRow P sfCurrent columns} (hr : Current final r) {rows : List SfRow}
    (hrows : rows.Perm (rowsAt (keyOf (pkOf sfCurrent)) r.key final.images)) :
    (RowOp.assign (assignment P sfCurrent r.driver)).act .none rows = rows := by
  obtain ⟨f, hf, hkey, hvalues⟩ := hr
  have hmem : f.image ∈ rows := hrows.mem_iff.mpr (PgTable.mem_images_at.mpr ⟨f, hf, hkey, rfl⟩)
  rw [RowOp.act, seed_of_ne_nil _ (List.ne_nil_of_mem hmem)]
  apply (List.map_congr_left ?_).trans (List.map_id _)
  intro x hx
  obtain ⟨f', hf', hkey', rfl⟩ := PgTable.mem_images_at.mp (hrows.mem_iff.mp hx)
  have hsame : f' = f := List.inj_on_of_nodup_map final.unique hf' hf (hkey'.trans hkey.symm)
  rw [hsame]
  funext c
  rw [overlay, assignment_eq]
  by_cases hc : c ∈ (rowToSf P r.driver).keys
  · rw [if_pos hc, Option.getD_some, hvalues c hc]
    rfl
  · rw [if_neg hc]
    rfl

/-- Changes behind the row of a chunk leave nothing of it, or the row is what they lead to anyway. -/
theorem runOps_after_chunkRow (hws : ChangesOf pgTable ws) (r : PgRow P sfCurrent columns)
    (hr : Current final r ∨ ∃ e, Write.change e ∈ ws ∧ changeKey P sfCurrent e = r.key)
    {rows : List SfRow}
    (hfinal : (runOps .none ((ws.filter (·.isChange)).map (Write.opAt r.key)) rows).Perm
      (rowsAt (keyOf (pkOf sfCurrent)) r.key final.images)) :
    runOps .none ((ws.filter (·.isChange)).map (Write.opAt r.key))
        ((RowOp.assign (assignment P sfCurrent r.driver)).act .none rows) =
      runOps .none ((ws.filter (·.isChange)).map (Write.opAt r.key)) rows := by
  by_cases hlater : ∃ e, Write.change e ∈ ws ∧ changeKey P sfCurrent e = r.key
  · -- a later change of the key hides what the chunk has written
    obtain ⟨e, he, hkey⟩ := hlater
    refine runOps_after_assign PyVal.none
      ⟨_, List.mem_map_of_mem (List.mem_filter.mpr ⟨he, rfl⟩),
        changeOp_ne_keep (hws e he) hkey⟩ ?_ rows
    intro b hb c hc
    obtain ⟨w, hw, hop⟩ := List.mem_map.mp hb
    rw [List.mem_filter] at hw
    cases w with
    | change e' => exact columns_of_changeOp (hws e' hw.1) hop r.driver_listed hc
    | chunk o' chunk' => exact absurd hw.2 Bool.false_ne_true
  · -- no later change: the rows of the key are already the final ones
    have hstay : ∀ rows, runOps .none ((ws.filter (·.isChange)).map (Write.opAt r.key)) rows = rows := by
      apply runOps_free
      · exact fun e he hkey => hlater ⟨e, List.mem_of_mem_filter he, hkey⟩
      · intro r' hr'
        obtain ⟨w, hw, hmem⟩ := List.mem_flatMap.mp hr'
        cases w with
        | change e' => exact absurd hmem List.not_mem_nil
        | chunk o' chunk' => exact absurd (List.mem_filter.mp hw).2 Bool.false_ne_true
    rw [hstay] at hfinal
    rw [hstay, hstay, act_assign_current (hr.resolve_right hlater) hfinal]

/-- **Harmless chunks leave at every key what the changes alone leave there.** -/
theorem runOps_of_harmless (hws : ChangesOf pgTable ws) (hharmless : Harmless final ws)
    {rows : List SfRow}
    (hfinal : (runOps .none ((ws.filter (·.isChange)).map (Write.opAt k)) rows).Perm
      (rowsAt (keyOf (pkOf sfCurrent)) k final.images)) :
    runOps .none (ws.map (Write.opAt k)) rows =
      runOps .none ((ws.filter (·.isChange)).map (Write.opAt k)) rows := by
  induction ws generalizing rows with
  | nil => rfl
  | cons w ws ih =>
    have hrest : ChangesOf pgTable ws := fun e he => hws e (List.mem_cons_of_mem _ he)
    cases w with
    | change e => exact ih hrest hharmless hfinal
    | chunk o chunk =>
      obtain ⟨hchunk, hharmless⟩ := hharmless
      rw [List.filter_cons_of_neg Bool.false_ne_true] at hfinal ⊢
      rw [List.map_cons, runOps_cons]
      rcases opAt_chunk o chunk k with ⟨-, hop⟩ | ⟨r, hr, rfl, hop⟩
      · rw [hop]
        exact ih hrest hharmless hfinal
      · rw [hop]
        have hgone := runOps_after_chunkRow hrest r (hchunk r hr) hfinal
        rw [← hgone]
        exact ih hrest hharmless (by rw [hgone]; exact hfinal)

/-- **Only harmless chunks do so**, when no key is written by two chunks. -/
theorem harmless_of_runOps (hws : ChangesOf pgTable ws)
    (hdistinct : ((ws.flatMap Write.rows).map PgRow.key).Nodup)
    (hfinal : ∀ k, ∃ rows, (runOps .none (ws.map (Write.opAt k)) rows).Perm
      (rowsAt (keyOf (pkOf sfCurrent)) k final.images)) : Harmless final ws := by
  induction ws with
  | nil => exact trivial
  | cons w ws ih =>
    have hrest : ChangesOf pgTable ws := fun e he => hws e (List.mem_cons_of_mem _ he)
    rw [List.flatMap_cons, List.map_append, List.nodup_append] at hdistinct
    obtain ⟨hown, hothers, hapart⟩ := hdistinct
    have hlater : Harmless final ws := by
      refine ih hrest hothers fun k => ?_
      obtain ⟨rows, hrows⟩ := hfinal k
      exact ⟨_, hrows⟩
    cases w with
    | change e => exact hlater
    | chunk o chunk =>
      refine ⟨fun r hr => ?_, hlater⟩
      by_cases hchange : ∃ e, Write.change e ∈ ws ∧ changeKey P sfCurrent e = r.key
      · exact Or.inr hchange
      · left
        obtain ⟨rows, hrows⟩ := hfinal r.key
        -- nothing behind the chunk touches the key, so what it assigns is final
        have hstay : ∀ rows, runOps .none (ws.map (Write.opAt r.key)) rows = rows := by
          apply runOps_free
          · exact fun e he hkey => hchange ⟨e, he, hkey⟩
          · exact fun r' hr' hkey =>
              hapart r.key (List.mem_map_of_mem hr) r'.key (List.mem_map_of_mem hr') hkey.symm
        rw [List.map_cons, runOps_cons, hstay] at hrows
        rcases opAt_chunk o chunk r.key with ⟨hfree, -⟩ | ⟨r', hr', hkey, hop⟩
        · exact absurd rfl (hfree r hr)
        · have hsame : r' = r := List.inj_on_of_nodup_map hown hr' hr hkey
          rw [hop, hsame] at hrows
          obtain ⟨x, hx⟩ := List.exists_mem_of_ne_nil _
            (act_assign_ne_nil PyVal.none (assignment P sfCurrent r.driver) rows)
          obtain ⟨f, hf, hfkey, hfimage⟩ := PgTable.mem_images_at.mp (hrows.mem_iff.mp hx)
          refine ⟨f, hf, hfkey, fun c hc => ?_⟩
          obtain ⟨y, -, rfl⟩ := List.mem_map.mp hx
          rw [hfimage, overlay, assignment_eq, if_pos hc, Option.getD_some]

end Chunks

/-! ### Every key in one chunk -/

section Distinct

variable {P : Platform} {pgTable sfCurrent : String} {columns : List String} {cfg : Config}
  {args : ReconcileArgs} {s : State P sfCurrent columns}

/-- A flush writes no chunk. -/
theorem rows_write_flush (env : CallEnv) :
    (s.write args (.flush env : Input P pgTable sfCurrent columns)).flatMap Write.rows = [] := by
  rw [State.write]
  cases s.polled <;> rfl

/-- Once the query has run, the chunks are pieces of its result, in order. -/
theorem chunkRows_sublist (inputs : List (Input P pgTable sfCurrent columns))
    {rows : List (PgRow P sfCurrent columns)} (h : s.cursor = some rows) :
    ((writes cfg args inputs s).flatMap Write.rows).Sublist rows := by
  induction inputs generalizing s rows with
  | nil => exact List.nil_sublist rows
  | cons i inputs ih =>
    rw [writes, List.flatMap_append]
    cases i with
    | op stamp op => exact ih h
    | poll n => exact ih h
    | flush env =>
      rw [rows_write_flush, List.nil_append]
      apply ih
      rw [step]
      split <;> exact h
    | read o =>
      apply ih
      rw [step, h]
      exact h
    | merge o =>
      have hfetched : s.fetched args = rows.take args.batch := by
        rw [State.fetched, h, Option.getD_some]
      rw [State.write, hfetched]
      cases htake : rows.take args.batch with
      | nil =>
        rw [htake] at hfetched
        have hstay : step cfg args s (.merge o : Input P pgTable sfCurrent columns) = s := by
          rw [step, hfetched]
        rw [hstay]
        exact ih h
      | cons first rest =>
        rw [htake] at hfetched
        have hnext : (step cfg args s (.merge o : Input P pgTable sfCurrent columns)).cursor =
            some (rows.drop args.batch) := by
          rw [step, hfetched]
          exact congrArg (Option.map _) h
        have hpieces : ((first :: rest) ++ (writes cfg args inputs
            (step cfg args s (.merge o))).flatMap Write.rows).Sublist
              ((first :: rest) ++ rows.drop args.batch) :=
          (List.Sublist.refl _).append (ih hnext)
        rw [← htake, List.take_append_drop, htake] at hpieces
        rw [if_neg (by simp), List.flatMap_singleton]
        exact hpieces

/-- **No key is in two chunks**, for the query reads each row once. -/
theorem nodup_chunkKeys (inputs : List (Input P pgTable sfCurrent columns)) (h : s.cursor = none) :
    (((writes cfg args inputs s).flatMap Write.rows).map PgRow.key).Nodup := by
  induction inputs generalizing s with
  | nil => exact List.nodup_nil
  | cons i inputs ih =>
    rw [writes, List.flatMap_append]
    cases i with
    | op stamp op => exact ih h
    | poll n => exact ih h
    | flush env =>
      rw [rows_write_flush, List.nil_append]
      apply ih
      rw [step]
      split <;> exact h
    | read o =>
      have hread : (step cfg args s (.read o : Input P pgTable sfCurrent columns)).cursor =
          some (o.sort (s.source.rows.filter fun r => args.since ≤ r.updatedAt)) := by
        rw [step, h]
      have hkeys : ((o.sort (s.source.rows.filter fun r => args.since ≤ r.updatedAt)).map
          PgRow.key).Nodup := by
        rw [((o.perm _).map PgRow.key).nodup_iff]
        exact s.source.unique.sublist (List.filter_sublist.map _)
      exact hkeys.sublist ((chunkRows_sublist inputs hread).map _)
    | merge o =>
      have hfetched : s.fetched args = [] := by
        rw [State.fetched, h, Option.getD_none, List.take_nil]
      rw [State.write, step, hfetched]
      exact ih h

end Distinct

/-! ### The service alone -/

section Service

variable {P : Platform} {pgTable sfCurrent sfHistory : String} {columns : List String}
  {cfg : Config} {args : ReconcileArgs} {s : State P sfCurrent columns}

/-- The update of the input, if it is one, leaves the key of its row. -/
def Input.KeepsKey : Input P pgTable sfCurrent columns → Prop
  | .op _ o => o.KeepsKey
  | _ => True

/-- The table, once the outstanding changes are applied, is the source. -/
def Follows (s : State P sfCurrent columns) : Prop :=
  ∀ k, runOps .none ((s.polled ++ s.slot).map (changeOp P sfCurrent k))
      (rowsAt (keyOf (pkOf sfCurrent)) k (s.tables sfCurrent)) =
    rowsAt (keyOf (pkOf sfCurrent)) k s.source.images

theorem follows_start (source : PgTable P sfCurrent columns) {tables : Store}
    (h : tables sfCurrent = source.images) : Follows (.start source tables) := by
  intro k
  show rowsAt _ k (tables sfCurrent) = _
  rw [h]
  rfl

variable (args) in
/-- The service goes on following the source. -/
theorem Follows.step (hmap : tableMap.get? pgTable = some (sfCurrent, sfHistory)) (h : Follows s)
    (htracked : Tracked pgTable s) {i : Input P pgTable sfCurrent columns} (hservice : i.isService)
    (hok : i.Succeeds cfg) (hkeeps : i.KeepsKey) : Follows (step cfg args s i) := by
  intro k
  cases i with
  | op stamp op =>
    show runOps PyVal.none ((s.polled ++ (s.slot ++ (s.source.apply stamp op).2.toList)).map
      (changeOp P sfCurrent k)) _ = _
    rw [← List.append_assoc, List.map_append, runOps_append]
    exact (congrArg _ (h k)).trans (PgTable.rowsAt_images_apply hkeeps k).symm
  | poll n =>
    show runOps PyVal.none (((s.polled ++ s.slot.take n) ++ s.slot.drop n).map (changeOp P sfCurrent k)) _ = _
    rw [List.append_assoc, List.take_append_drop]
    exact h k
  | flush env =>
    rw [LiveReconcile.step]
    cases hpolled : s.polled with
    | nil => exact h k
    | cons e rest =>
      have he := htracked e (List.mem_append_right _ (by rw [hpolled]; exact List.mem_cons_self))
      have hk := h k
      rw [hpolled, List.cons_append, List.map_cons, runOps_cons] at hk
      show runOps PyVal.none ((rest ++ s.slot).map (changeOp P sfCurrent k)) _ = _
      rw [rowsAt_flushOne hmap hok he 0 s.tables k]
      exact hk
  | read o => cases hservice
  | merge o => cases hservice

variable (cfg args) in
/-- **A service that starts in step with the source and has applied everything holds the source**, as
long as no update changes a key. -/
theorem service_follows (hmap : tableMap.get? pgTable = some (sfCurrent, sfHistory))
    {inputs : List (Input P pgTable sfCurrent columns)} (hservice : ∀ i ∈ inputs, i.isService)
    (hok : ∀ i ∈ inputs, i.Succeeds cfg) (hkeeps : ∀ i ∈ inputs, i.KeepsKey)
    {source : PgTable P sfCurrent columns} {tables : Store} (hstart : tables sfCurrent = source.images)
    (hpolled : (run cfg args inputs (.start source tables)).polled = [])
    (hslot : (run cfg args inputs (.start source tables)).slot = []) :
    ((run cfg args inputs (.start source tables)).tables sfCurrent).Perm
      (run cfg args inputs (.start source tables)).source.images := by
  have hrun : Follows (run cfg args inputs (.start source tables)) ∧
      Tracked pgTable (run cfg args inputs (.start source tables)) := by
    refine Replay.run_invariant (P := fun s => Follows s ∧ Tracked pgTable s) _
      ⟨follows_start source hstart, fun e he => absurd he List.not_mem_nil⟩ ?_
    intro i hi s hs
    exact ⟨hs.1.step args hmap hs.2 (hservice i hi) (hok i hi) (hkeeps i hi), hs.2.step i⟩
  apply perm_of_rowsAt (keyOf (pkOf sfCurrent))
  intro k
  have hk := hrun.1 k
  rw [hpolled, hslot] at hk
  exact List.Perm.of_eq hk

end Service

/-- Batches of ten, one attempt for each. -/
def sampleConfig : Config := ⟨10, 10, 1⟩

/-- Two customers on the free plan. -/
def twoCustomers : PgTable .ascii "CUSTOMERS" ["id", "tenant_id", "status"] :=
  ⟨15, [freeCustomer, otherCustomer], by decide +kernel⟩

/-- The first customer changes to the paid plan. -/
def upgrade : Input .ascii "customers" "CUSTOMERS" ["id", "tenant_id", "status"] :=
  .op (customerStamp 100) (.update freeCustomer.key paidCustomer)

/-- The chunk is written first, and then the change that came after the query. -/
def chunkFirst : List (Input .ascii "customers" "CUSTOMERS" ["id", "tenant_id", "status"]) :=
  [.read (.stable _), upgrade, .merge (lastFirst 0), .poll 1, .flush (sampleEnv true)]

/-- The change is written first, and then the chunk with the row as it was. -/
def changeFirst : List (Input .ascii "customers" "CUSTOMERS" ["id", "tenant_id", "status"]) :=
  [.read (.stable _), upgrade, .poll 1, .flush (sampleEnv true), .merge (lastFirst 0)]

/-- Beside either run the service alone holds the source in the end. -/
theorem upgrade_followed
    {inputs : List (Input .ascii "customers" "CUSTOMERS" ["id", "tenant_id", "status"])}
    (h : inputs.filter (·.isService) = [upgrade, .poll 1, .flush (sampleEnv true)]) :
    ((run sampleConfig ⟨0, 5⟩ (inputs.filter (·.isService))
        (.start twoCustomers fun _ => twoCustomers.images)).tables "CUSTOMERS").Perm
      (run sampleConfig ⟨0, 5⟩ inputs
        (.start twoCustomers fun _ => twoCustomers.images)).source.images := by
  have hmap : tableMap.get? "customers" = some ("CUSTOMERS", "CUSTOMERS_HISTORY") := by decide
  rw [← (writes_service sampleConfig ⟨0, 5⟩ inputs ⟨rfl, rfl, rfl⟩).2.1, h]
  refine service_follows sampleConfig ⟨0, 5⟩ hmap ?_ ?_ ?_ rfl rfl rfl
  · decide
  · have hflush : (sampleEnv true).Succeeds sampleConfig := by decide
    simpa [upgrade, Input.Succeeds] using hflush
  · have hkey : paidCustomer.key = freeCustomer.key := by decide +kernel
    simpa [upgrade, Input.KeepsKey, PgOp.KeepsKey] using hkey

end LiveReconcile

end PgSnowflakeCdc
