import PgSnowflakeCdc.Scripts.BackfillRuns

/-!
# What backfill loads

* `backfill_atMostOnce` — **no row is loaded twice unless a process ends between an INSERT of a page and
  the checkpoint of that page**, the first page of a table excepted;
* `backfill_complete` — **no row is missed, every run ends, and without crashes the load is exact**;
* `backfill_repeatedIds_iff` — **ids that repeat are loaded completely exactly when no full page ends
  between two rows of equal id**, and no INSERT raises.
-/

namespace PgSnowflakeCdc

open OrderedDict Paging

namespace Backfill

/-- Not between an INSERT of a page and its checkpoint, except on the first page of a table, which the
next run truncates. -/
def CrashSafe (s : State) : Prop :=
  match s.control with
  | .inserting load page left => left.length = page.length ∨ s.saved.lastId load.pgTable = 0
  | _ => True

instance : DecidablePred CrashSafe := fun s => by
  unfold CrashSafe
  split <;> infer_instance

/-! ### Sample tables -/

/-- A row of `customers` as psycopg2 delivers it. -/
def customerRow (id : ℤ) (tenant : String) : Row :=
  ⟨[("id", .int id), ("tenant_id", .str tenant)], by simp⟩

/-- A source whose `customers` are the given pairs of id and tenant, and without devices. -/
def customerSource (ids : List (ℤ × String)) : BackfillSource where
  rows pgTable := if pgTable = "customers" then ids.map fun p => customerRow p.1 p.2 else []
  columns _ := ["id", "tenant_id"]
  listed pgTable row hrow := by
    split at hrow
    · obtain ⟨p, -, rfl⟩ := List.mem_map.mp hrow
      rfl
    · exact absurd hrow List.not_mem_nil

/-- Pages of `n` rows, written row by row. -/
def rowByRow (n : ℕ) : BackfillConfig := ⟨n + 1, 1, Nat.succ_pos n, Nat.one_pos⟩

/-- A process goes on for `n` steps. -/
def goOn (n : ℕ) : List Input := List.replicate n (.proceed (.stable rowId))

section Histories

variable {P : Platform} {cfg : BackfillConfig} {source : BackfillSource}

/-- At a safe place nothing of a page is left half done. -/
theorem crashKeeps_of_safe {t : String × String} {C : ℤ → List Row → Table → Prop} {s : State}
    (h : CrashSafe s) : CrashKeeps t C s := by
  intro hid hheld
  obtain ⟨control, cp, file, tables⟩ := s
  cases control with
  | inserting load page left =>
    by_cases heq : load.pgTable = t.1
    · have hlen : left.length = page.length := by
        rcases h with hlen | hzero
        · exact hlen
        · rw [heq] at hzero
          exact absurd hzero hid
      rw [inserted, if_pos heq, hlen, Nat.sub_self, List.take_zero] at hheld
      exact hheld
    · rw [inserted, if_neg heq] at hheld
      exact hheld
  | _ => exact hheld

/-- A table held exactly holds rows of the source, each at most once. -/
theorem Exact.atMostOnce {t : String × String} {c : ℤ} {done : List Row} {tbl : Table}
    (hn : (source.rows t.1).Nodup) (h : Exact P cfg source t c done tbl) :
    ∃ l : List Row, l.Nodup ∧ l ⊆ source.rows t.1 ∧ tbl = l.map (backfillImage P t.2) := by
  obtain ⟨l, hread, htbl, hdone, -⟩ := h
  rcases hdone with rfl | ⟨o, hpre⟩
  · exact ⟨l, hread.nodup hn, fun r hr => (hread.mem r hr).1, by rw [htbl, List.append_nil]⟩
  · refine ⟨l ++ done, ?_, ?_, htbl⟩
    · refine List.nodup_append.mpr ⟨hread.nodup hn, (nodup_page o hn).sublist hpre.sublist, ?_⟩
      rintro r hr r' hr' rfl
      have hbeyond := (mem_of_mem_page o (hpre.subset hr')).2
      exact absurd hbeyond (not_lt.mpr (hread.mem r hr).2.2)
    · exact List.append_subset.mpr ⟨fun r hr => (hread.mem r hr).1,
        fun r hr => (mem_of_mem_page o (hpre.subset hr)).1⟩

/-- **No row is loaded twice, as long as no process ends between an INSERT of a page and the checkpoint
of that page** (the first page of a table excepted): whenever a table is in progress or `main` has
returned, the target holds rows of the source, each at most once. -/
theorem backfill_atMostOnce (P : Platform) (cfg : BackfillConfig) (source : BackfillSource)
    (hids : ∀ t ∈ backfillTables, ((source.rows t.1).map rowId).Nodup) (tables : Store)
    (inputs : List Input) (hsafe : CrashesAt P cfg source CrashSafe inputs (.initial tables)) :
    ∀ t ∈ backfillTables,
      InProgress t (run P cfg source inputs (.initial tables)) ∨
        (run P cfg source inputs (.initial tables)).control = .completed →
      ∃ l : List Row, l.Nodup ∧ l ⊆ source.rows t.1 ∧
        (run P cfg source inputs (.initial tables)).tables t.2 = l.map (backfillImage P t.2) := by
  intro t ht hprogress
  have hheld := held_run ht (loadInvariant_exact P cfg source t) inputs (consistent_initial tables)
    (held_initial t _ tables) (hsafe.mono fun s hs => crashKeeps_of_safe hs)
  have hprogress : InProgress t (run P cfg source inputs (.initial tables)) := by
    rcases hprogress with h | h
    · exact h
    · exact Or.inr (Or.inl (done_of_completed h t ht))
  exact (hheld hprogress).atMostOnce ((hids t ht).of_map rowId)

/-- A process that ends behind the INSERT of the first page. -/
theorem backfill_atMostOnce_firstPage :
    ∃ l : List Row, l.Nodup ∧ l ⊆ (customerSource [(1, "a"), (2, "a")]).rows "customers" ∧
      (run .ascii (rowByRow 0) (customerSource [(1, "a"), (2, "a")])
        (goOn 5 ++ .crash :: goOn 20) (.initial fun _ => [])).tables "CUSTOMERS" =
          l.map (backfillImage .ascii "CUSTOMERS") :=
  backfill_atMostOnce .ascii (rowByRow 0) (customerSource [(1, "a"), (2, "a")]) (by decide +kernel)
    (fun _ => []) (goOn 5 ++ .crash :: goOn 20) (by decide +kernel) ("customers", "CUSTOMERS")
    List.mem_cons_self (Or.inr (by decide +kernel))

/-- **A process that ends between the INSERT of the second page and its checkpoint leaves a duplicate
behind.** -/
theorem backfill_duplicates_row :
    (∀ r ∈ (customerSource [(1, "a"), (2, "a")]).rows "customers", 0 < rowId r) ∧
      (∀ t ∈ backfillTables, (((customerSource [(1, "a"), (2, "a")]).rows t.1).map rowId).Nodup) ∧
      (run .ascii (rowByRow 0) (customerSource [(1, "a"), (2, "a")])
        (goOn 8 ++ .crash :: goOn 12) (.initial fun _ => [])).control = .completed ∧
      ¬ ∃ l : List Row, l.Nodup ∧ l ⊆ (customerSource [(1, "a"), (2, "a")]).rows "customers" ∧
        (run .ascii (rowByRow 0) (customerSource [(1, "a"), (2, "a")])
          (goOn 8 ++ .crash :: goOn 12) (.initial fun _ => [])).tables "CUSTOMERS" =
            l.map (backfillImage .ascii "CUSTOMERS") := by
  refine ⟨by decide +kernel, by decide +kernel, by decide +kernel, ?_⟩
  rintro ⟨l, hn, hsub, htbl⟩
  have hthree : ((run .ascii (rowByRow 0) (customerSource [(1, "a"), (2, "a")])
      (goOn 8 ++ .crash :: goOn 12) (.initial fun _ => [])).tables "CUSTOMERS").length = 3 := by
    decide +kernel
  have htwo : ((customerSource [(1, "a"), (2, "a")]).rows "customers").length = 2 := rfl
  have hle := (hn.subperm hsub).length_le
  rw [htbl, List.length_map] at hthree
  omega

/-- **No row is missed.**  After any history of runs: every source row up to the checkpoint is in the
target; a table marked done holds the rows of its source and nothing else, and when `main` has returned
every table is marked done; a process left alone comes to its end, which is that `main` returns unless
an INSERT raises; and if no process has ended early, a table marked done holds each row once, in the
order of the ids. -/
theorem backfill_complete (P : Platform) (cfg : BackfillConfig) (source : BackfillSource)
    (hids : ∀ t ∈ backfillTables, ((source.rows t.1).map rowId).Nodup)
    (hpos : ∀ t ∈ backfillTables, ∀ r ∈ source.rows t.1, 0 < rowId r) (tables : Store)
    (inputs : List Input) :
    (∀ t ∈ backfillTables, ∀ r ∈ source.rows t.1,
        rowId r ≤ (run P cfg source inputs (.initial tables)).saved.lastId t.1 →
        backfillImage P t.2 r ∈ (run P cfg source inputs (.initial tables)).tables t.2) ∧
      (∀ t ∈ backfillTables, (run P cfg source inputs (.initial tables)).saved.done t.1 = true →
        ∀ x, x ∈ (run P cfg source inputs (.initial tables)).tables t.2 ↔
          ∃ r ∈ source.rows t.1, backfillImage P t.2 r = x) ∧
      ((run P cfg source inputs (.initial tables)).control = .completed →
        ∀ t ∈ backfillTables, (run P cfg source inputs (.initial tables)).saved.done t.1 = true) ∧
      (∃ n, ∀ orders : List (KeyOrder rowId), n ≤ orders.length →
        let s := run P cfg source (orders.map .proceed) (run P cfg source inputs (.initial tables))
        Ends P cfg s ∧ ((∀ t ∈ backfillTables, ∀ r ∈ source.rows t.1, Insertable P r) →
          s.control = .completed)) ∧
      (.crash ∉ inputs → ∀ t ∈ backfillTables,
        (run P cfg source inputs (.initial tables)).saved.done t.1 = true →
        ∃ l : List Row, l.Perm (source.rows t.1) ∧ (l.Pairwise fun a b => rowId a < rowId b) ∧
          (run P cfg source inputs (.initial tables)).tables t.2 = l.map (backfillImage P t.2)) := by
  have hs := consistent_run P cfg source inputs tables
  have hcovers : ∀ t ∈ backfillTables,
      Held t (Covers P source t) (run P cfg source inputs (.initial tables)) := by
    intro t ht
    refine held_run ht (loadInvariant_covers P cfg (hids t ht) (hpos t ht)) inputs
      (consistent_initial tables) (held_initial t _ tables) ?_
    have hall : ∀ s, True → CrashKeeps t (Covers P source t) s := by
      rintro s - - ⟨l, hsub, hcover, -, htbl⟩
      exact ⟨l, hsub, hcover, List.nil_subset _, htbl⟩
    exact (crashesAt_true inputs _).mono hall
  refine ⟨fun t ht r hr hle => ?_, fun t ht hdone x => ?_, done_of_completed,
    ⟨weight source (run P cfg source inputs (.initial tables)).control, fun orders hlen => ?_⟩,
    fun hnone t ht hdone => ?_⟩
  · have hnonzero : (run P cfg source inputs (.initial tables)).saved.lastId t.1 ≠ 0 :=
      ((hpos t ht r hr).trans_le hle).ne'
    obtain ⟨l, -, hcover, -, htbl⟩ := hcovers t ht (Or.inl hnonzero)
    rw [htbl]
    exact List.mem_map_of_mem (hcover r hr hle)
  · obtain ⟨l, hsub, hcover, -, htbl⟩ := hcovers t ht (Or.inr (Or.inl hdone))
    rw [htbl, List.mem_map]
    constructor
    · rintro ⟨r, hr, rfl⟩
      exact ⟨r, hsub hr, rfl⟩
    · rintro ⟨r, hr, rfl⟩
      exact ⟨r, hcover r hr (hs.done t ht hdone r hr), rfl⟩
  · have hends : Ends P cfg (run P cfg source (orders.map .proceed)
        (run P cfg source inputs (.initial tables))) := run_ends orders _ hlen
    refine ⟨hends, fun hinsertable => hends.resolve_right fun hraises => ?_⟩
    have hlater : Consistent P cfg source (run P cfg source (orders.map .proceed)
        (run P cfg source inputs (.initial tables))) :=
      Replay.run_invariant (step P cfg source) hs fun i _ _ hs' => hs'.step i
    obtain ⟨load, page, left, hcontrol, row, hrow, hnot⟩ := hlater.exists_of_raises hraises
    have hplaced := hlater.placed
    rw [hcontrol] at hplaced
    exact hnot (hinsertable _ hplaced.1.mem row hrow)
  · have hheld := held_run ht (loadInvariant_exact P cfg source t) inputs (consistent_initial tables)
      (held_initial t _ tables) (crashesAt_of_notMem hnone _)
    obtain ⟨l, hread, htbl, -, -⟩ := hheld (Or.inr (Or.inl hdone))
    rw [hs.inserted_of_done ht hdone, List.append_nil] at htbl
    have hperm := hread.perm_of_nodup_keys (hids t ht) (hpos t ht) (hs.done t ht hdone)
    have hdistinct : l.Pairwise fun a b => rowId a ≠ rowId b :=
      List.pairwise_map.mp ((hperm.map rowId).nodup_iff.mpr (hids t ht))
    exact ⟨l, hperm, (hread.sorted.and hdistinct).imp fun h => lt_of_le_of_ne h.1 h.2, htbl⟩

/-- A table loaded by two processes has the row at which the first one ended. -/
theorem backfill_complete_resumed :
    backfillImage .ascii "CUSTOMERS" (customerRow 2 "a") ∈
      (run .ascii (rowByRow 0) (customerSource [(1, "a"), (2, "a")])
        (goOn 8 ++ .crash :: goOn 12) (.initial fun _ => [])).tables "CUSTOMERS" := by
  obtain ⟨-, hdone, -, -, -⟩ := backfill_complete .ascii (rowByRow 0) (customerSource [(1, "a"), (2, "a")])
    (by decide +kernel) (by decide +kernel) (fun _ => []) (goOn 8 ++ .crash :: goOn 12)
  refine (hdone ("customers", "CUSTOMERS") List.mem_cons_self (by decide +kernel) _).mpr
    ⟨customerRow 2 "a", ?_, rfl⟩
  decide +kernel

/-- One uninterrupted run: the first `n` steps of a process, `orders` being the orders in which the
queries sort. -/
def uninterrupted (P : Platform) (cfg : BackfillConfig) (source : BackfillSource)
    (orders : ℕ → KeyOrder rowId) (n : ℕ) (tables : Store) : State :=
  run P cfg source ((List.range n).map fun i => .proceed (orders i)) (.initial tables)

/-- Once a run has come to its end nothing happens any more. -/
theorem uninterrupted_of_ends {orders : ℕ → KeyOrder rowId} {n : ℕ} {tables : Store}
    (h : Ends P cfg (uninterrupted P cfg source orders n tables)) {m : ℕ} (hm : n ≤ m) :
    uninterrupted P cfg source orders m tables = uninterrupted P cfg source orders n tables := by
  obtain ⟨k, rfl⟩ := Nat.exists_eq_add_of_le hm
  have hlater : (List.range k).map (fun i => Input.proceed (orders (n + i))) =
      ((List.range k).map fun i => orders (n + i)).map .proceed := by
    rw [List.map_map]
    rfl
  rw [uninterrupted, List.range_add, List.map_append, List.map_map, run, Replay.run_append]
  exact (congrArg (fun inputs => run P cfg source inputs _) hlater).trans (run_of_ends h _)

/-- Every run comes to its end. -/
theorem exists_uninterrupted_ends (P : Platform) (cfg : BackfillConfig) (source : BackfillSource)
    (orders : ℕ → KeyOrder rowId) (tables : Store) :
    ∃ n, Ends P cfg (uninterrupted P cfg source orders n tables) := by
  have hmap : ((List.range (weight source (State.initial tables).control)).map
      fun i => Input.proceed (orders i)) =
        ((List.range (weight source (State.initial tables).control)).map orders).map .proceed := by
    rw [List.map_map]
    rfl
  refine ⟨weight source (State.initial tables).control, ?_⟩
  rw [uninterrupted, hmap]
  exact run_ends _ _ (by rw [List.length_map, List.length_range])

/-- **Ids that repeat are loaded completely exactly when no full page ends between two rows of equal
id**, and no row makes an INSERT raise.  For `customers` with rows unique by `(id, tenant_id)`, whatever
orders the queries use: from some point on the run has marked the table done, and each row is in the
target once. -/
theorem backfill_repeatedIds_iff (P : Platform) (cfg : BackfillConfig) (source : BackfillSource)
    (hkeys : ((source.rows "customers").map fun r => (rowId r, cell r "tenant_id")).Nodup)
    (hpos : ∀ r ∈ source.rows "customers", 0 < rowId r) (orders : ℕ → KeyOrder rowId)
    (tables : Store) :
    (∃ n, ∀ m, n ≤ m →
        (uninterrupted P cfg source orders m tables).saved.done "customers" = true ∧
        ((uninterrupted P cfg source orders m tables).tables "CUSTOMERS").Perm
          ((source.rows "customers").map (backfillImage P "CUSTOMERS"))) ↔
      CleanBoundaries rowId cfg.pageSize (source.rows "customers") ∧
        ∀ r ∈ source.rows "customers", Insertable P r := by
  have hn : (source.rows "customers").Nodup := hkeys.of_map _
  have ht : ("customers", "CUSTOMERS") ∈ backfillTables := List.mem_cons_self
  have hloaded : ∀ n, (uninterrupted P cfg source orders n tables).saved.done "customers" = true →
      ∃ l, Read rowId cfg.pageSize (source.rows "customers") 0
          ((uninterrupted P cfg source orders n tables).saved.lastId "customers") l ∧
        (uninterrupted P cfg source orders n tables).tables "CUSTOMERS" =
          l.map (backfillImage P "CUSTOMERS") ∧ (∀ r ∈ l, Insertable P r) ∧
        (l.Perm (source.rows "customers") ↔
          CleanBoundaries rowId cfg.pageSize (source.rows "customers")) := by
    intro n hdone
    have hs := consistent_run P cfg source
      ((List.range n).map fun i => .proceed (orders i)) tables
    have hnone : Input.crash ∉ (List.range n).map fun i => .proceed (orders i) := by simp
    have hheld := held_run ht (loadInvariant_exact P cfg source _) _ (consistent_initial tables)
      (held_initial _ _ tables) (crashesAt_of_notMem hnone _)
    obtain ⟨l, hread, htbl, -, hinsertable⟩ := hheld (Or.inr (Or.inl hdone))
    rw [hs.inserted_of_done ht hdone, List.append_nil] at htbl hinsertable
    exact ⟨l, hread, htbl, hinsertable, hread.perm_iff hn hpos (hs.done _ ht hdone)⟩
  constructor
  · rintro ⟨n, hall⟩
    obtain ⟨hdone, hperm⟩ := hall n le_rfl
    obtain ⟨l, hread, htbl, hinsertable, hclean⟩ := hloaded n hdone
    have hlen : (source.rows "customers").length ≤ l.length := by
      have hlen := hperm.length_eq
      rw [htbl, List.length_map, List.length_map] at hlen
      omega
    have hsub : l.Subperm (source.rows "customers") :=
      (hread.nodup hn).subperm fun r hr => (hread.mem r hr).1
    have hwhole := hsub.perm_of_length_le hlen
    exact ⟨hclean.mp hwhole, fun r hr => hinsertable r (hwhole.mem_iff.mpr hr)⟩
  · rintro ⟨hclean, hinsertable⟩
    obtain ⟨n, hends⟩ := exists_uninterrupted_ends P cfg source orders tables
    have hs := consistent_run P cfg source
      ((List.range n).map fun i => .proceed (orders i)) tables
    have hdone : (uninterrupted P cfg source orders n tables).saved.done "customers" = true := by
      rcases hends with hcompleted | hraises
      · exact done_of_completed hcompleted _ ht
      · -- what raises is an INSERT of the other table, behind this one
        obtain ⟨load, page, left, hcontrol, row, hrow, hnot⟩ := hs.exists_of_raises hraises
        have hplaced := hs.placed
        rw [hcontrol] at hplaced
        obtain ⟨⟨⟨before, hsplit, hbefore⟩, -, -⟩, -⟩ := hplaced
        cases before with
        | nil =>
          have hfirst := (List.cons.inj hsplit).1
          have htable : "customers" = load.pgTable := congrArg Prod.fst hfirst
          exact absurd (hinsertable row (htable ▸ hrow)) hnot
        | cons t before =>
          have hfirst : ("customers", "CUSTOMERS") = t := (List.cons.inj hsplit).1
          have hvisited := hbefore t List.mem_cons_self
          rw [← hfirst] at hvisited
          exact hvisited
    refine ⟨n, fun m hm => ?_⟩
    rw [uninterrupted_of_ends hends hm]
    obtain ⟨l, -, htbl, -, hperm⟩ := hloaded n hdone
    refine ⟨hdone, ?_⟩
    rw [htbl]
    exact (hperm.mpr hclean).map _

/-- An id under two tenants, inside one page. -/
theorem backfill_repeatedIds_insidePage :
    ∃ n, ∀ m, n ≤ m →
      (uninterrupted .ascii (rowByRow 1) (customerSource [(1, "a"), (1, "b"), (2, "a")])
        (fun _ => .stable rowId) m (fun _ => [])).saved.done "customers" = true ∧
      ((uninterrupted .ascii (rowByRow 1) (customerSource [(1, "a"), (1, "b"), (2, "a")])
        (fun _ => .stable rowId) m (fun _ => [])).tables "CUSTOMERS").Perm
          (((customerSource [(1, "a"), (1, "b"), (2, "a")]).rows "customers").map
            (backfillImage .ascii "CUSTOMERS")) := by
  refine (backfill_repeatedIds_iff .ascii (rowByRow 1)
    (customerSource [(1, "a"), (1, "b"), (2, "a")]) (by decide +kernel) (by decide +kernel)
    (fun _ => .stable rowId) (fun _ => [])).mpr ⟨?_, by decide +kernel⟩
  intro j hj hlt
  have hlt : j * 2 < 3 := hlt
  have hone : j = 1 := by omega
  subst hone
  decide +kernel

/-- **An id under two tenants at the end of a page: the second tenant is skipped.** -/
theorem backfill_skips_tenant :
    (((customerSource [(1, "a"), (1, "b")]).rows "customers").map
        fun r => (rowId r, cell r "tenant_id")).Nodup ∧
      (uninterrupted .ascii (rowByRow 0) (customerSource [(1, "a"), (1, "b")])
        (fun _ => .stable rowId) 14 (fun _ => [])).control = .completed ∧
      ((uninterrupted .ascii (rowByRow 0) (customerSource [(1, "a"), (1, "b")])
        (fun _ => .stable rowId) 14 (fun _ => [])).tables "CUSTOMERS").map
          (keyOf ["ID", "TENANT_ID"]) = [[.str "1", .str "a"]] := by
  decide +kernel

end Histories

end Backfill

end PgSnowflakeCdc
