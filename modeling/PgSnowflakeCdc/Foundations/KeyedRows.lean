import Mathlib.Data.List.Nodup
import Mathlib.Data.List.Perm.Basic
import PgSnowflakeCdc.Foundations.Replay

/-!
# Tables of rows filed under a key

The abstract view of a store whose rows are addressed by key.  A table is seen key by key
(`rowsAt`): two tables hold the same rows exactly when they agree at every key, and keys are unique
exactly when no key files two rows.  At a single key, everything a keyed write can do is one of
three row operations:

* `keep` — nothing;
* `assign a` — every row of the key takes the columns that `a` assigns; when the key has no row, a
  blank row is created first;
* `remove` — the rows of the key go away.

**`absorbs`**: a list of row operations absorbs every earlier execution of some of its own
operations.  Either it removes, and then only what follows the last removal counts; or it only
assigns, and then the last assignment of each column counts.
-/

namespace PgSnowflakeCdc.KeyedRows

open PgSnowflakeCdc.Replay

/-! ### The view at a key -/

section View

variable {ρ κ : Type*} [DecidableEq κ] (key : ρ → κ)

/-- The rows filed under `k`. -/
def rowsAt (k : κ) (t : List ρ) : List ρ := t.filter (fun r => key r = k)

/-- No key files two rows. -/
def UniqueKeys (t : List ρ) : Prop := (t.map key).Nodup

theorem mem_rowsAt {k : κ} {t : List ρ} {r : ρ} : r ∈ rowsAt key k t ↔ r ∈ t ∧ key r = k := by
  simp [rowsAt]

theorem rowsAt_append (k : κ) (t t' : List ρ) :
    rowsAt key k (t ++ t') = rowsAt key k t ++ rowsAt key k t' :=
  List.filter_append t t'

theorem rowsAt_perm {t t' : List ρ} (h : t.Perm t') (k : κ) :
    (rowsAt key k t).Perm (rowsAt key k t') :=
  h.filter _

/-- **Tables that agree at every key hold the same rows.** -/
theorem perm_of_rowsAt {t t' : List ρ} (h : ∀ k, (rowsAt key k t).Perm (rowsAt key k t')) :
    t.Perm t' := by
  classical
  rw [List.perm_iff_count]
  intro r
  have hcount : ∀ l : List ρ, (rowsAt key (key r) l).count r = l.count r := by
    intro l
    rw [rowsAt, List.count_filter (by simp)]
  rw [← hcount t, ← hcount t', (h (key r)).count_eq]

theorem uniqueKeys_iff {t : List ρ} : UniqueKeys key t ↔ ∀ k, (rowsAt key k t).length ≤ 1 := by
  rw [UniqueKeys, List.nodup_iff_count_le_one]
  apply forall_congr'
  intro k
  rw [rowsAt, ← List.countP_eq_length_filter, List.count, List.countP_map]
  have hfun : ((fun x => x == k) ∘ key) = fun r => decide (key r = k) := by
    funext r
    exact Bool.eq_iff_iff.mpr (by simp)
  rw [hfun]

/-- With unique keys, a key files the one row that a search for it finds. -/
theorem rowsAt_of_uniqueKeys {t : List ρ} (h : UniqueKeys key t) (k : κ) :
    rowsAt key k t = (t.find? (fun r => key r = k)).toList := by
  induction t with
  | nil => rfl
  | cons r t ih =>
    have hnd : UniqueKeys key t := (List.nodup_cons.mp h).2
    by_cases hk : key r = k
    · have hrest : rowsAt key k t = [] := by
        rw [rowsAt, List.filter_eq_nil_iff]
        intro r' hr' hkey
        apply (List.nodup_cons.mp h).1
        rw [hk, ← of_decide_eq_true hkey]
        exact List.mem_map_of_mem hr'
      rw [rowsAt] at hrest
      rw [rowsAt, List.filter_cons_of_pos (by simpa using hk), hrest,
        List.find?_cons_of_pos (by simpa using hk)]
      rfl
    · rw [rowsAt, List.filter_cons_of_neg (by simpa using hk),
        List.find?_cons_of_neg (by simpa using hk)]
      exact ih hnd

/-- A map that keeps keys maps the rows of each key. -/
theorem rowsAt_map {f : ρ → ρ} (hf : ∀ r, key (f r) = key r) (k : κ) (t : List ρ) :
    rowsAt key k (t.map f) = (rowsAt key k t).map f := by
  rw [rowsAt, rowsAt, List.filter_map]
  congr 2
  funext r
  rw [Function.comp_apply, hf r]

end View

/-! ### Row operations -/

section Ops

variable {C V : Type*}

/-- A row after some of its columns have been assigned. -/
def overlay (a : C → Option V) (r : C → V) : C → V := fun c => (a c).getD (r c)

/-- What a keyed write does at one key. -/
inductive RowOp (C V : Type*) where
  | keep : RowOp C V
  | assign : (C → Option V) → RowOp C V
  | remove : RowOp C V

variable (blank : V)

/-- The rows of a key, after making sure there is one. -/
def seed (rs : List (C → V)) : List (C → V) := if rs.isEmpty then [fun _ => blank] else rs

/-- The effect of a row operation on the rows of a key. -/
def RowOp.act : RowOp C V → List (C → V) → List (C → V)
  | .keep, rs => rs
  | .assign a, rs => (seed blank rs).map (overlay a)
  | .remove, _ => []

/-- Execute row operations in order. -/
abbrev runOps (ops : List (RowOp C V)) (rs : List (C → V)) : List (C → V) :=
  run (RowOp.act blank) ops rs

theorem runOps_cons (o : RowOp C V) (ops : List (RowOp C V)) (rs : List (C → V)) :
    runOps blank (o :: ops) rs = runOps blank ops (o.act blank rs) := rfl

theorem runOps_append (xs ys : List (RowOp C V)) (rs : List (C → V)) :
    runOps blank (xs ++ ys) rs = runOps blank ys (runOps blank xs rs) :=
  run_append _ xs ys rs

theorem overlay_overlay (a b : C → Option V) (r : C → V) :
    overlay b (overlay a r) = overlay (fun c => (b c).or (a c)) r := by
  funext c
  cases hb : b c <;> simp [overlay, hb]

/-- An assignment hides an earlier one that assigns no further column. -/
theorem overlay_absorb {a b : C → Option V} (h : ∀ c, b c = none → a c = none) (r : C → V) :
    overlay b (overlay a r) = overlay b r := by
  funext c
  cases hb : b c with
  | some v => simp [overlay, hb]
  | none => simp [overlay, hb, h c hb]

theorem seed_of_ne_nil {rs : List (C → V)} (h : rs ≠ []) : seed blank rs = rs := by
  rw [seed, if_neg (by simpa using h)]

theorem seed_ne_nil (rs : List (C → V)) : seed blank rs ≠ [] := by
  cases rs <;> simp [seed]

theorem act_assign_ne_nil (a : C → Option V) (rs : List (C → V)) :
    (RowOp.assign a).act blank rs ≠ [] := by
  rw [RowOp.act, Ne, List.map_eq_nil_iff]
  exact seed_ne_nil blank rs

/-- An assignment hides an earlier one that assigns no further column, also when it creates the row. -/
theorem act_assign_absorb {a b : C → Option V} (h : ∀ c, b c = none → a c = none)
    (rs : List (C → V)) :
    (RowOp.assign b).act blank ((RowOp.assign a).act blank rs) = (RowOp.assign b).act blank rs := by
  rw [RowOp.act, seed_of_ne_nil blank (act_assign_ne_nil blank a rs), RowOp.act, List.map_map, RowOp.act]
  congr 1
  funext r
  exact overlay_absorb h r

/-- A row operation files at most one row under a key that had at most one. -/
theorem length_act_le_one (o : RowOp C V) {rs : List (C → V)} (h : rs.length ≤ 1) :
    (o.act blank rs).length ≤ 1 := by
  cases o with
  | keep => exact h
  | assign a =>
    rw [RowOp.act, List.length_map]
    cases rs with
    | nil => simp [seed]
    | cons r rs => rw [seed_of_ne_nil blank (List.cons_ne_nil r rs)]; exact h
  | remove => simp [RowOp.act]

/-! ### Lists of row operations in normal form -/

/-- The assignment a list without removals amounts to: for each column the last one made. -/
def combined : List (RowOp C V) → C → Option V
  | [], _ => none
  | .assign a :: ops, c => (combined ops c).or (a c)
  | .keep :: ops, c => combined ops c
  | .remove :: ops, c => combined ops c

/-- Whether a list contains an assignment. -/
def Assigns (ops : List (RowOp C V)) : Prop := ∃ a, RowOp.assign a ∈ ops

theorem combined_eq_none_iff (ops : List (RowOp C V)) (c : C) :
    combined ops c = none ↔ ∀ a, RowOp.assign a ∈ ops → a c = none := by
  induction ops with
  | nil => simp [combined]
  | cons o ops ih =>
    cases o with
    | keep => simp [combined, ih]
    | assign a => simp [combined, ih, and_comm]
    | remove => simp [combined, ih]

/-- Nothing happens without assignments and removals. -/
theorem runOps_of_not_assigns {ops : List (RowOp C V)} (hr : RowOp.remove ∉ ops)
    (ha : ¬ Assigns ops) (rs : List (C → V)) : runOps blank ops rs = rs := by
  refine run_invariant (P := fun rs' => rs' = rs) _ rfl ?_
  intro o ho rs' hrs'
  cases o with
  | keep => exact hrs'
  | assign a => exact absurd ⟨a, ho⟩ ha
  | remove => exact absurd ho hr

/-- **Normal form.**  Without removals, a list that assigns acts as its combined assignment. -/
theorem runOps_of_assigns {ops : List (RowOp C V)} (hr : RowOp.remove ∉ ops) (ha : Assigns ops)
    (rs : List (C → V)) :
    runOps blank ops rs = (RowOp.assign (combined ops)).act blank rs := by
  induction ops generalizing rs with
  | nil => obtain ⟨a, ha⟩ := ha; simp at ha
  | cons o ops ih =>
    have hr' : RowOp.remove ∉ ops := fun h => hr (List.mem_cons_of_mem o h)
    cases o with
    | remove => exact absurd List.mem_cons_self hr
    | keep =>
      have ha' : Assigns ops := by
        obtain ⟨a, ha⟩ := ha
        exact ⟨a, by simpa using ha⟩
      exact ih hr' ha' rs
    | assign b =>
      show runOps blank ops ((RowOp.assign b).act blank rs) = _
      by_cases ha' : Assigns ops
      · rw [ih hr' ha', RowOp.act, seed_of_ne_nil blank (act_assign_ne_nil blank b rs), RowOp.act,
          List.map_map, RowOp.act]
        congr 1
        funext r
        exact overlay_overlay b (combined ops) r
      · rw [runOps_of_not_assigns blank hr' ha']
        have hnone : ∀ c, combined ops c = none := fun c =>
          (combined_eq_none_iff ops c).mpr (fun a h => absurd ⟨a, h⟩ ha')
        have hb : combined (.assign b :: ops) = b := by
          funext c
          rw [combined, hnone c, Option.none_or]
        rw [hb]

/-- A removal forgets what was there before it. -/
theorem runOps_forgets {ops : List (RowOp C V)} (hr : RowOp.remove ∈ ops) (rs rs' : List (C → V)) :
    runOps blank ops rs = runOps blank ops rs' := by
  obtain ⟨xs, ys, rfl⟩ := List.append_of_mem hr
  simp only [runOps, run_append, run_cons, RowOp.act]

/-- **Row operations absorb earlier executions of themselves.** -/
theorem absorbs : Absorbs (RowOp.act (C := C) blank) := by
  intro full part rs hsub
  by_cases hr : RowOp.remove ∈ full
  · exact runOps_forgets blank hr _ _
  have hr' : RowOp.remove ∉ part := fun h => hr (hsub h)
  by_cases hpart : Assigns part
  · obtain ⟨a, ha⟩ := hpart
    have hfull : Assigns full := ⟨a, hsub ha⟩
    have hhide : ∀ c, combined full c = none → combined part c = none := by
      intro c hc
      rw [combined_eq_none_iff] at hc ⊢
      exact fun b hb => hc b (hsub hb)
    have hp : run (RowOp.act blank) part rs = (RowOp.assign (combined part)).act blank rs :=
      runOps_of_assigns blank hr' ⟨a, ha⟩ rs
    have hf : ∀ rs, run (RowOp.act blank) full rs = (RowOp.assign (combined full)).act blank rs :=
      runOps_of_assigns blank hr hfull
    rw [hp, hf, hf]
    exact act_assign_absorb blank hhide rs
  · rw [show run (RowOp.act blank) part rs = rs from runOps_of_not_assigns blank hr' hpart rs]

/-- **An assignment slipped in before operations that do something leaves nothing behind**, if they
assign at least its columns. -/
theorem runOps_after_assign {ops : List (RowOp C V)} (hops : ∃ o ∈ ops, o ≠ .keep) {a : C → Option V}
    (hcols : ∀ b, RowOp.assign b ∈ ops → ∀ c, b c = none → a c = none) (rs : List (C → V)) :
    runOps blank ops ((RowOp.assign a).act blank rs) = runOps blank ops rs := by
  by_cases hr : RowOp.remove ∈ ops
  · exact runOps_forgets blank hr _ _
  · obtain ⟨o, ho, hne⟩ := hops
    cases o with
    | keep => exact absurd rfl hne
    | remove => exact absurd ho hr
    | assign b =>
      rw [runOps_of_assigns blank hr ⟨b, ho⟩, runOps_of_assigns blank hr ⟨b, ho⟩]
      apply act_assign_absorb
      intro c hc
      exact hcols b ho c ((combined_eq_none_iff ops c).mp hc b ho)

/-- Assignments that all assign the same columns: the last one decides. -/
theorem runOps_snoc_assign {ops : List (RowOp C V)} (hr : RowOp.remove ∉ ops) {b : C → Option V}
    (hsame : ∀ a, RowOp.assign a ∈ ops → ∀ c, b c = none → a c = none) (rs : List (C → V)) :
    runOps blank (ops ++ [.assign b]) rs = (RowOp.assign b).act blank rs := by
  have hr' : RowOp.remove ∉ ops ++ [.assign b] := by simpa using hr
  have hb : combined (ops ++ [.assign b]) = b := by
    funext c
    induction ops with
    | nil => simp [combined]
    | cons o ops ih =>
      have ih' := ih (fun h => hr (List.mem_cons_of_mem o h))
        (fun a h => hsame a (List.mem_cons_of_mem o h)) (fun h => hr' (List.mem_cons_of_mem o h))
      cases o with
      | keep => exact ih'
      | remove => exact ih'
      | assign a =>
        rw [List.cons_append, combined, ih']
        cases hbc : b c with
        | some v => rfl
        | none => rw [hsame a List.mem_cons_self c hbc, Option.none_or]
  rw [runOps_of_assigns blank hr' ⟨b, by simp⟩, hb]

/-- A list of operations that ends in an assignment leaves rows behind. -/
theorem runOps_snoc_assign_ne_nil (ops : List (RowOp C V)) (a : C → Option V) (rs : List (C → V)) :
    runOps blank (ops ++ [.assign a]) rs ≠ [] := by
  rw [runOps_append]
  exact act_assign_ne_nil blank a _

/-- A list of operations that ends in a removal leaves nothing behind. -/
theorem runOps_snoc_remove (ops : List (RowOp C V)) (rs : List (C → V)) :
    runOps blank (ops ++ [.remove]) rs = [] := by
  rw [runOps_append]
  rfl

/-! ### Whole tables -/

variable {κ : Type*} [DecidableEq κ] (key : (C → V) → κ)

/-- Assign the rows of a key, or create its row. -/
def upsertAt (k : κ) (a : C → Option V) (t : List (C → V)) : List (C → V) :=
  if ∃ r ∈ t, key r = k then t.map fun r => if key r = k then overlay a r else r
  else t ++ [overlay a fun _ => blank]

/-- Remove the rows of a key. -/
def removeAt (k : κ) (t : List (C → V)) : List (C → V) := t.filter fun r => key r ≠ k

/-- **`upsertAt` at a key**, when the assigned columns fix the key. -/
theorem rowsAt_upsertAt {k : κ} {a : C → Option V} (ha : ∀ r, key (overlay a r) = k)
    (t : List (C → V)) (k' : κ) :
    rowsAt key k' (upsertAt blank key k a t) =
      (if k = k' then RowOp.assign a else .keep).act blank (rowsAt key k' t) := by
  have hkeep : ∀ r, key (if key r = k then overlay a r else r) = key r := by
    intro r
    split
    · next h => rw [ha r, h]
    · rfl
  rw [upsertAt]
  by_cases hex : ∃ r ∈ t, key r = k
  · rw [if_pos hex, rowsAt_map key hkeep]
    by_cases hk : k = k'
    · have hne : rowsAt key k' t ≠ [] := by
        obtain ⟨r, hr, hrk⟩ := hex
        exact List.ne_nil_of_mem ((mem_rowsAt key).mpr ⟨hr, hrk.trans hk⟩)
      rw [if_pos hk, RowOp.act, seed_of_ne_nil blank hne]
      apply List.map_congr_left
      intro r hr
      rw [if_pos (((mem_rowsAt key).mp hr).2.trans hk.symm)]
    · rw [if_neg hk, RowOp.act]
      apply (List.map_congr_left ?_).trans (List.map_id _)
      intro r hr
      rw [if_neg (fun h => hk (h.symm.trans ((mem_rowsAt key).mp hr).2)), id]
  · rw [if_neg hex, rowsAt_append]
    by_cases hk : k = k'
    · have hempty : rowsAt key k' t = [] := by
        rw [List.eq_nil_iff_forall_not_mem]
        intro r hr
        exact hex ⟨r, ((mem_rowsAt key).mp hr).1, ((mem_rowsAt key).mp hr).2.trans hk.symm⟩
      rw [if_pos hk, hempty, List.nil_append, RowOp.act, rowsAt,
        List.filter_cons_of_pos (by simpa using (ha _).trans hk)]
      rfl
    · rw [if_neg hk, RowOp.act, rowsAt, rowsAt,
        List.filter_cons_of_neg (by simpa using fun h => hk ((ha _).symm.trans h))]
      exact List.append_nil _

/-- **`removeAt` at a key.** -/
theorem rowsAt_removeAt (k : κ) (t : List (C → V)) (k' : κ) :
    rowsAt key k' (removeAt key k t) =
      (if k = k' then RowOp.remove else .keep).act blank (rowsAt key k' t) := by
  rw [removeAt, rowsAt, rowsAt, List.filter_filter]
  by_cases hk : k = k'
  · rw [if_pos hk, RowOp.act, List.filter_eq_nil_iff]
    intro r _
    simp [hk]
  · rw [if_neg hk, RowOp.act]
    apply List.filter_congr
    intro r _
    by_cases hr : key r = k'
    · simp [hr, Ne.symm hk]
    · simp [hr]

end Ops

end PgSnowflakeCdc.KeyedRows
