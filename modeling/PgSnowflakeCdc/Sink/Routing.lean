import PgSnowflakeCdc.Sink.Buffer
import PgSnowflakeCdc.Sink.ColumnNames

/-!
# Which target an event reaches

The filter of `main.py`, `publish` and the grouping of `_write_batch` all go by
`normalize_pg_table(event.table)`: a table name, without its schema, and any name that begins with a
partition prefix.

* `ownTable` — the mapped relation an event belongs to, from its schema and its table;
* `WritesTo` — the pair of Snowflake tables an event reaches; `writesTo_iff`;
* `writesTo_of_mem_writeBatch` — every statement of a batch is on the pair that an event of it reaches;
* `routesOwn_iff` — **events reach only their own table exactly when none of them is a stray.**
-/

namespace PgSnowflakeCdc

open OrderedDict

/-! ### What belongs where -/

/-- The name begins with the partition prefix. -/
def HasPartitionPrefix (table : String) : Prop := "customers_".toList.isPrefixOf table.toList

instance : DecidablePred HasPartitionPrefix := fun _ => inferInstanceAs (Decidable (_ = true))

/-- A partition of `customers`: `customers_p` and a number. -/
def IsPartition (table : String) : Prop :=
  "customers_p".toList.isPrefixOf table.toList = true ∧
    table.toList.drop "customers_p".length ≠ [] ∧
    ∀ c ∈ table.toList.drop "customers_p".length, IsDigitChar c

instance : DecidablePred IsPartition := fun _ => inferInstanceAs (Decidable (_ ∧ _ ∧ _))

/-- The mapped relation a source relation belongs to: `public.customers` and its partitions,
`public.customer_devices`. -/
def ownTable (schema table : String) : Option String :=
  if schema ≠ "public" then none
  else if table = "customers" ∨ IsPartition table then some "customers"
  else if table = "customer_devices" then some "customer_devices"
  else none

/-- The pair of Snowflake tables is the one of the relation. -/
def OwnsPair (schema table : String) (pair : String × String) : Prop :=
  ∃ t, ownTable schema table = some t ∧ tableMap.get? t = some pair

/-! ### What reaches what -/

/-- Of the events published, one reaches a pair: it is buffered, and `_write_batch` finds it in the group
of the pair. -/
def WritesTo (events : List ChangeEvent) (e : ChangeEvent) (pair : String × String) : Prop :=
  ∃ g ∈ (Dict.groupBy (fun e => normalizePgTable e.table) (replicated events)).entries,
    e.normalized ∈ g.2 ∧ tableMap.get? g.1 = some pair

theorem isMapped_of_target {table : String} {pair : String × String}
    (h : tableMap.get? (normalizePgTable table) = some pair) : IsMapped table :=
  Dict.mem_keys_of_get? h

/-- **An event reaches the pair of its normalised table name**, and no other. -/
theorem writesTo_iff {events : List ChangeEvent} {e : ChangeEvent} (he : e ∈ events)
    (pair : String × String) :
    WritesTo events e pair ↔ tableMap.get? (normalizePgTable e.table) = some pair := by
  have hidem : normalizePgTable e.normalized.table = normalizePgTable e.table :=
    normalizePgTable_idem e.table
  constructor
  · rintro ⟨g, hg, hmem, hpair⟩
    rw [Dict.mem_entries_groupBy hg, List.mem_filter, decide_eq_true_eq] at hmem
    rw [← hidem, hmem.2, hpair]
  · intro hpair
    have hbuffered : e.normalized ∈ replicated events :=
      List.mem_map_of_mem (List.mem_filter.mpr ⟨he, by simpa using isMapped_of_target hpair⟩)
    have hkey := (Dict.mem_keys_groupBy (f := fun e : ChangeEvent => normalizePgTable e.table)).mpr
      ⟨e.normalized, hbuffered, rfl⟩
    obtain ⟨g, hg, hfst⟩ := List.mem_map.mp hkey
    refine ⟨g, hg, ?_, ?_⟩
    · rw [Dict.mem_entries_groupBy hg, List.mem_filter, decide_eq_true_eq]
      exact ⟨hbuffered, hfst.symm⟩
    · rw [hfst, hidem, hpair]

/-- **Every statement of a batch is on the pair that an event of the batch reaches.** -/
theorem writesTo_of_mem_writeBatch {P : Platform} {events : List ChangeEvent} {stmt : Stmt}
    (h : stmt ∈ (writeBatch P (replicated events)).1) :
    ∃ e ∈ events, ∃ pair, WritesTo events e pair ∧ (stmt.table = pair.1 ∨ stmt.table = pair.2) := by
  obtain ⟨g, hg, sfCurrent', sfHistory', hmap, hstmt⟩ := mem_writeGroups h
  rw [← groupStmts_mapped P hmap] at hstmt
  obtain ⟨sfCurrent, sfHistory, hpair, htable⟩ := table_of_mem_groupStmts hstmt
  obtain ⟨e', he', hkey⟩ := Dict.mem_keys_groupBy.mp (List.mem_map_of_mem hg)
  obtain ⟨e, he, rfl⟩ := List.mem_map.mp he'
  have hmem : e.normalized ∈ g.2 := by
    rw [Dict.mem_entries_groupBy hg, List.mem_filter, decide_eq_true_eq]
    exact ⟨he', hkey⟩
  exact ⟨e, (List.mem_filter.mp he).1, (sfCurrent, sfHistory), ⟨g, hg, hmem, hpair⟩, htable⟩

/-! ### Strays -/

/-- A name that is routed to a target although the relation is another one: in a schema other than
`public`, or behind the partition prefix without being a partition. -/
def Stray (schema table : String) : Prop :=
  (table = "customers" ∨ table = "customer_devices" ∨ HasPartitionPrefix table) ∧
    (schema ≠ "public" ∨ (HasPartitionPrefix table ∧ ¬ IsPartition table))

instance (schema table : String) : Decidable (Stray schema table) :=
  inferInstanceAs (Decidable (_ ∧ _))

theorem normalizePgTable_of_prefixed {table : String} (h : HasPartitionPrefix table) :
    normalizePgTable table = "customers" := by
  have hbegins : "customers_".toList.isPrefixOf table.toList = true := h
  simp only [normalizePgTable, partitionPrefixes, List.find?_cons, hbegins]

theorem normalizePgTable_of_unprefixed {table : String} (h : ¬ HasPartitionPrefix table) :
    normalizePgTable table = table := by
  have hbegins : "customers_".toList.isPrefixOf table.toList = false := by
    rw [Bool.eq_false_iff]
    exact h
  simp only [normalizePgTable, partitionPrefixes, List.find?_cons, hbegins, List.find?_nil]

/-- The names that are routed to a pair. -/
theorem target_cases {table : String} {pair : String × String}
    (h : tableMap.get? (normalizePgTable table) = some pair) :
    (table = "customers" ∧ pair = ("CUSTOMERS", "CUSTOMERS_HISTORY")) ∨
      (table = "customer_devices" ∧ pair = ("CUSTOMER_DEVICES", "CUSTOMER_DEVICES_HISTORY")) ∨
      (HasPartitionPrefix table ∧ pair = ("CUSTOMERS", "CUSTOMERS_HISTORY")) := by
  by_cases hbegins : HasPartitionPrefix table
  · rw [normalizePgTable_of_prefixed hbegins] at h
    exact Or.inr (Or.inr ⟨hbegins, (Option.some.inj h).symm⟩)
  · rw [normalizePgTable_of_unprefixed hbegins] at h
    obtain ⟨current, history⟩ := pair
    obtain ⟨rfl, rfl, rfl⟩ | ⟨rfl, rfl, rfl⟩ := tableMap_cases h
    · exact Or.inl ⟨rfl, rfl⟩
    · exact Or.inr (Or.inl ⟨rfl, rfl⟩)

/-- The relations that belong to a mapped one are routed by name, and a name behind the prefix is a
partition. -/
theorem ownTable_cases {schema table t : String} (h : ownTable schema table = some t) :
    schema = "public" ∧ ((table = "customers" ∧ t = "customers") ∨
      (IsPartition table ∧ t = "customers") ∨
      (table = "customer_devices" ∧ t = "customer_devices")) := by
  rw [ownTable] at h
  split at h
  · cases h
  · next hschema =>
      refine ⟨not_not.mp hschema, ?_⟩
      split at h
      · next htable =>
          have ht := (Option.some.inj h).symm
          exact htable.elim (fun hname => Or.inl ⟨hname, ht⟩) fun hpart => Or.inr (Or.inl ⟨hpart, ht⟩)
      · split at h
        · next hname => exact Or.inr (Or.inr ⟨hname, (Option.some.inj h).symm⟩)
        · cases h

/-- **A routed relation owns its target exactly when it is no stray.** -/
theorem ownsPair_iff {schema table : String} {pair : String × String}
    (h : tableMap.get? (normalizePgTable table) = some pair) :
    OwnsPair schema table pair ↔ ¬ Stray schema table := by
  constructor
  · rintro ⟨t, hown, -⟩ ⟨-, hstray⟩
    obtain ⟨hschema, hcases⟩ := ownTable_cases hown
    rcases hstray with hother | ⟨hbegins, hpartition⟩
    · exact hother hschema
    · rcases hcases with ⟨rfl, -⟩ | ⟨hpart, -⟩ | ⟨rfl, -⟩
      · exact absurd hbegins (by decide)
      · exact hpartition hpart
      · exact absurd hbegins (by decide)
  · intro hstray
    have hown : schema = "public" ∧ (HasPartitionPrefix table → IsPartition table) := by
      have hname : table = "customers" ∨ table = "customer_devices" ∨ HasPartitionPrefix table := by
        rcases target_cases h with ⟨hn, -⟩ | ⟨hn, -⟩ | ⟨hn, -⟩
        · exact Or.inl hn
        · exact Or.inr (Or.inl hn)
        · exact Or.inr (Or.inr hn)
      simp only [Stray, not_and, not_or, not_not] at hstray
      exact hstray hname
    obtain ⟨rfl, hpartition⟩ := hown
    rcases target_cases h with ⟨rfl, rfl⟩ | ⟨rfl, rfl⟩ | ⟨hbegins, rfl⟩
    · exact ⟨"customers", by decide, by decide⟩
    · exact ⟨"customer_devices", by decide, by decide⟩
    · refine ⟨"customers", ?_, by decide⟩
      rw [ownTable, if_neg (not_not_intro rfl), if_pos (Or.inr (hpartition hbegins))]

/-! ### Routing -/

/-- Every event published reaches its own table's pair only, and events that meet in a current-state
table come from the same relation, partitions apart, of the same schema. -/
structure RoutesOwn (events : List ChangeEvent) : Prop where
  own : ∀ e ∈ events, ∀ pair, WritesTo events e pair → OwnsPair e.schema e.table pair
  apart : ∀ e ∈ events, ∀ e' ∈ events, ∀ pair pair', WritesTo events e pair →
    WritesTo events e' pair' → pair.1 = pair'.1 →
      e.schema = e'.schema ∧ ownTable e.schema e.table = ownTable e'.schema e'.table

/-- **Events reach only their own table exactly when none of them is a stray.** -/
theorem routesOwn_iff (events : List ChangeEvent) :
    RoutesOwn events ↔ ∀ e ∈ events, ¬ Stray e.schema e.table := by
  constructor
  · intro h e he hstray
    have htarget : ∃ pair, tableMap.get? (normalizePgTable e.table) = some pair := by
      rcases hstray.1 with hname | hname | hbegins
      · rw [hname]
        exact ⟨("CUSTOMERS", "CUSTOMERS_HISTORY"), by decide⟩
      · rw [hname]
        exact ⟨("CUSTOMER_DEVICES", "CUSTOMER_DEVICES_HISTORY"), by decide⟩
      · rw [normalizePgTable_of_prefixed hbegins]
        exact ⟨("CUSTOMERS", "CUSTOMERS_HISTORY"), by decide⟩
    obtain ⟨pair, hpair⟩ := htarget
    exact (ownsPair_iff hpair).mp (h.own e he pair ((writesTo_iff he pair).mpr hpair)) hstray
  · intro h
    have hown : ∀ e ∈ events, ∀ pair, WritesTo events e pair → OwnsPair e.schema e.table pair :=
      fun e he pair hwrites => (ownsPair_iff ((writesTo_iff he pair).mp hwrites)).mpr (h e he)
    refine ⟨hown, ?_⟩
    rintro e he e' he' ⟨current, history⟩ ⟨current', history'⟩ hwrites hwrites' hcurrent
    obtain ⟨t, ht, htarget⟩ := hown e he _ hwrites
    obtain ⟨t', ht', htarget'⟩ := hown e' he' _ hwrites'
    have hsame : current = current' := hcurrent
    subst hsame
    have hrelation : t = t' := tableMap_current_injective htarget htarget'
    subst hrelation
    exact ⟨(ownTable_cases ht).1.trans (ownTable_cases ht').1.symm, ht.trans ht'.symm⟩

/-- A delete in a table of its own, `public.customers_archive`. -/
def archiveDelete : ChangeEvent where
  op := .d
  schema := "public"
  table := "customers_archive"
  before := some ⟨[("id", .str "1"), ("tenantId", .str "7")], by simp⟩
  after := none
  lsn := 11
  tsMs := 0
  commitLsn := 12

/-- The same delete in the table `customers` of another schema. -/
def auditDelete : ChangeEvent := { archiveDelete with schema := "audit", table := "customers" }

/-- **Both delete a row of `CUSTOMERS`.** -/
theorem strays_delete_customer :
    ¬ RoutesOwn [archiveDelete] ∧ ¬ RoutesOwn [auditDelete] ∧
      ∀ events ∈ [[archiveDelete], [auditDelete]],
        .delete "CUSTOMERS" ["ID", "TENANT_ID"] [.str "1", .str "7"] ∈
          (writeBatch .ascii (replicated events)).1 := by
  have hstray : ∀ e ∈ [archiveDelete, auditDelete],
      tableMap.get? (normalizePgTable e.table) = some ("CUSTOMERS", "CUSTOMERS_HISTORY") ∧
        ownTable e.schema e.table = none := by decide
  have hroutes : ∀ e ∈ [archiveDelete, auditDelete], ¬ RoutesOwn [e] := by
    intro e he h
    obtain ⟨htarget, hnone⟩ := hstray e he
    obtain ⟨t, hown, -⟩ := h.own e (by simp) _ ((writesTo_iff (by simp) _).mpr htarget)
    rw [hnone] at hown
    cases hown
  exact ⟨hroutes _ (by simp), hroutes _ (by simp), by decide +kernel⟩

end PgSnowflakeCdc
