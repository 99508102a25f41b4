import PgSnowflakeCdc.Foundations.Replay
import Mathlib.Data.Finset.Dedup
import Mathlib.Data.Finset.Insert

/-!
# The publication at service start (`ensure_publication`, `run`)

PostgreSQL's publications are a map from names to tables and the flag `publish_via_partition_root`.
`ensure_publication` creates a publication that is not there, and sets the flag of one that is.

* `ensurePublication` — what a call leaves behind, and whether it returns or raises;
* `PublicationEvent` — a start of the service, or an administrator at work;
* `tables_run` — no start changes the tables of a publication that is there;
* `publication_follows_iff` — **a history of starts keeps the publication in step with the configured
  tables exactly when every start finds it fit.**
-/

namespace PgSnowflakeCdc

/-- A publication: its tables, and `publish_via_partition_root`. -/
structure Publication where
  tables : Finset String
  viaRoot : Bool
deriving DecidableEq

abbrev Publications := String → Option Publication

/-- How the calls of one start go: connecting and the lookup, the ALTER with its commit, the rollback
when that fails, the CREATE with its commit. -/
structure PublicationEnv where
  connects : Bool
  alters : Bool
  rollsBack : Bool
  creates : Bool

/-- An exception of the database driver. -/
inductive DatabaseError where
  | failed : DatabaseError
deriving DecidableEq

/-- `ensure_publication(tables)` for the publication `name`. -/
def ensurePublication (name : String) (tables : List String) (env : PublicationEnv)
    (pubs : Publications) : Publications × Except DatabaseError Unit :=
  if ¬ env.connects then (pubs, .error .failed)
  else
    match pubs name with
    | some pub =>
      if env.alters then
        (Function.update pubs name (some { pub with viaRoot := true }), .ok ())
      -- `except Exception`: roll back, log a warning and return
      else if env.rollsBack then (pubs, .ok ())
      else (pubs, .error .failed)
    | none =>
      if env.creates then (Function.update pubs name (some ⟨tables.toFinset, true⟩), .ok ())
      else (pubs, .error .failed)

/-- What happens to the publications: a start of the service with its `CDC_TABLES`, which goes on when
`ensure_publication` raises, or whatever an administrator does. -/
inductive PublicationEvent where
  | start (tables : List String) (env : PublicationEnv) : PublicationEvent
  | administrator (pubs : Publications) : PublicationEvent

namespace PublicationEvent

variable (name : String)

def apply : PublicationEvent → Publications → Publications
  | .start tables env, pubs => (ensurePublication name tables env pubs).1
  | .administrator pubs, _ => pubs

/-- The publication exists, contains the tables, and publishes via the partition root. -/
def Follows (tables : List String) (pubs : Publications) : Prop :=
  ∃ pub, pubs name = some pub ∧ (∀ t ∈ tables, t ∈ pub.tables) ∧ pub.viaRoot = true

/-- When `ensure_publication` returns normally, the publication follows the tables. -/
def Followed (pubs : Publications) : PublicationEvent → Prop
  | .start tables env => (ensurePublication name tables env pubs).2 = .ok () →
      Follows name tables (ensurePublication name tables env pubs).1
  | .administrator _ => True

/-- What a start finds: no publication, or one with all the tables, and with the flag too if the ALTER
fails; a start that cannot connect or roll back is not concerned. -/
def Fit (pubs : Publications) : PublicationEvent → Prop
  | .start tables env => ∀ pub, pubs name = some pub → env.connects = true →
      env.alters = true ∨ env.rollsBack = true →
        (∀ t ∈ tables, t ∈ pub.tables) ∧ (env.alters = true ∨ pub.viaRoot = true)
  | .administrator _ => True

variable {name}

/-! ### One start -/

section Calls

variable {tables : List String} {env : PublicationEnv} {pubs : Publications}

theorem ensurePublication_unconnected (h : env.connects = false) :
    ensurePublication name tables env pubs = (pubs, .error .failed) := by
  simp [ensurePublication, h]

/-- A publication that is there keeps its tables. -/
theorem ensurePublication_some {pub : Publication} (hpub : pubs name = some pub)
    (h : env.connects = true) :
    ensurePublication name tables env pubs =
      if env.alters then (Function.update pubs name (some { pub with viaRoot := true }), .ok ())
      else if env.rollsBack then (pubs, .ok ())
      else (pubs, .error .failed) := by
  simp [ensurePublication, h, hpub]

theorem ensurePublication_none (hpub : pubs name = none) (h : env.connects = true) :
    ensurePublication name tables env pubs =
      if env.creates then (Function.update pubs name (some ⟨tables.toFinset, true⟩), .ok ())
      else (pubs, .error .failed) := by
  simp [ensurePublication, h, hpub]

end Calls

/-- **One start**: what it leaves follows the tables exactly when it finds the publication fit. -/
theorem followed_iff_fit (pubs : Publications) (event : PublicationEvent) :
    Followed name pubs event ↔ Fit name pubs event := by
  cases event with
  | administrator pubs' => exact Iff.rfl
  | start tables env =>
      simp only [Followed, Fit]
      cases hconnects : env.connects with
      | false =>
          rw [ensurePublication_unconnected hconnects]
          simp
      | true =>
          cases hpub : pubs name with
          | none =>
              rw [ensurePublication_none hpub hconnects]
              cases hcreates : env.creates with
              | false => simp
              | true => simp [Follows]
          | some pub =>
              rw [ensurePublication_some hpub hconnects]
              cases halters : env.alters with
              | true => simp [Follows]
              | false =>
                  cases hrolls : env.rollsBack with
                  | true => simp [Follows, hpub]
                  | false => simp

/-! ### Histories -/

/-- No start changes the tables of a publication that is there, or takes its flag. -/
theorem apply_start_tables {pubs : Publications} {pub : Publication} (h : pubs name = some pub)
    (tables : List String) (env : PublicationEnv) :
    ∃ pub', (PublicationEvent.start tables env).apply name pubs name = some pub' ∧
      pub'.tables = pub.tables ∧ (pub.viaRoot = true → pub'.viaRoot = true) := by
  show ∃ pub', (ensurePublication name tables env pubs).1 name = some pub' ∧ _
  cases hconnects : env.connects with
  | false =>
      rw [ensurePublication_unconnected hconnects]
      exact ⟨pub, h, rfl, id⟩
  | true =>
      rw [ensurePublication_some h hconnects]
      cases env.alters with
      | true => exact ⟨{ pub with viaRoot := true }, by simp, rfl, fun _ => rfl⟩
      | false =>
          cases env.rollsBack with
          | true => exact ⟨pub, h, rfl, id⟩
          | false => exact ⟨pub, h, rfl, id⟩

/-- **Once a publication is there, starts alone never change its tables**, whatever they are configured
with. -/
theorem tables_run {history : List PublicationEvent} {pubs : Publications} {pub : Publication}
    (hstarts : ∀ event ∈ history, ∃ tables env, event = .start tables env)
    (h : pubs name = some pub) :
    ∃ pub', Replay.run (apply name) history pubs name = some pub' ∧ pub'.tables = pub.tables ∧
      (pub.viaRoot = true → pub'.viaRoot = true) := by
  induction history generalizing pubs pub with
  | nil => exact ⟨pub, h, rfl, id⟩
  | cons event history ih =>
      obtain ⟨tables, env, rfl⟩ := hstarts event List.mem_cons_self
      obtain ⟨pub₁, hpub₁, htables₁, hflag₁⟩ := apply_start_tables h tables env
      obtain ⟨pub₂, hpub₂, htables₂, hflag₂⟩ :=
        ih (fun e he => hstarts e (List.mem_cons_of_mem _ he)) hpub₁
      exact ⟨pub₂, hpub₂, htables₂.trans htables₁, fun hflag => hflag₂ (hflag₁ hflag)⟩

end PublicationEvent

open PublicationEvent

/-- **The publication follows the configured tables exactly when every start finds it fit**: in every
history of starts and administrators, from every initial map. -/
theorem publication_follows_iff (name : String) (history : List PublicationEvent)
    (pubs : Publications) :
    Replay.Along (apply name) (Followed name) history pubs ↔
      Replay.Along (apply name) (Fit name) history pubs :=
  Replay.along_congr followed_iff_fit history pubs

/-- A start at which every call succeeds. -/
def smoothStart : PublicationEnv := ⟨true, true, true, true⟩

/-- **A table added to `CDC_TABLES` later is not published**: the second start returns normally, and the
publication has the first table only.  A flag that is off stays off when the ALTER fails. -/
theorem added_table_not_published :
    ¬ Replay.Along (apply "cdc_pub") (Followed "cdc_pub")
        [.start ["public.customers"] smoothStart,
          .start ["public.customers", "public.customer_devices"] smoothStart] (fun _ => none) ∧
      ¬ Replay.Along (apply "cdc_pub") (Followed "cdc_pub")
        [.start ["public.customers"] ⟨true, false, true, true⟩]
        (fun _ => some ⟨{"public.customers"}, false⟩) := by
  constructor
  · rintro ⟨-, hsecond, -⟩
    obtain ⟨pub, hpub, htables, -⟩ := hsecond (by decide)
    have hfirst : pub = ⟨{"public.customers"}, true⟩ := by
      have hvalue : (ensurePublication "cdc_pub" ["public.customers", "public.customer_devices"]
          smoothStart ((PublicationEvent.start ["public.customers"] smoothStart).apply "cdc_pub"
            fun _ => none)).1 "cdc_pub" = some ⟨{"public.customers"}, true⟩ := by decide
      exact Option.some.inj (hpub.symm.trans hvalue)
    subst hfirst
    exact absurd (htables "public.customer_devices" (by decide)) (by decide)
  · rintro ⟨hfirst, -⟩
    obtain ⟨pub, hpub, -, hflag⟩ := hfirst (by decide)
    have hvalue : pub = ⟨{"public.customers"}, false⟩ := (Option.some.inj hpub).symm
    rw [hvalue] at hflag
    cases hflag

end PgSnowflakeCdc
