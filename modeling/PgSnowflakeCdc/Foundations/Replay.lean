import Mathlib.Data.List.Basic
import Mathlib.Tactic.Common

/-!
# Interrupted and resumed executions of a batch list

A program executes batches of operations in order.  It may be interrupted after any prefix of any
batch and resumed from the start of that batch or of an earlier one, any number of times.  The
executions differ from the uninterrupted one only by *extra* operations, each of which the resumed
pass executes again.  When a full list of operations **absorbs** every earlier execution of some
of its own operations, nothing of the interruptions survives (`resume_converges`).
-/

namespace PgSnowflakeCdc.Replay

variable {S Op : Type*} (act : Op → S → S)

/-- Execute operations in order. -/
def run (ops : List Op) (s : S) : S := ops.foldl (fun s o => act o s) s

@[simp] theorem run_nil (s : S) : run act [] s = s := rfl

@[simp] theorem run_cons (o : Op) (ops : List Op) (s : S) :
    run act (o :: ops) s = run act ops (act o s) := rfl

theorem run_append (xs ys : List Op) (s : S) : run act (xs ++ ys) s = run act ys (run act xs s) :=
  List.foldl_append

/-- **The invariant rule of runs.** -/
theorem run_invariant {P : S → Prop} {ops : List Op} {s : S} (h₀ : P s)
    (hstep : ∀ o ∈ ops, ∀ s, P s → P (act o s)) : P (run act ops s) := by
  induction ops generalizing s with
  | nil => exact h₀
  | cons o ops ih =>
    rw [run_cons]
    exact ih (hstep o List.mem_cons_self s h₀)
      (fun o' ho' => hstep o' (List.mem_cons_of_mem o ho'))

/-- `Q` holds of every operation of a run and the state that meets it. -/
def Along (Q : S → Op → Prop) : List Op → S → Prop
  | [], _ => True
  | o :: ops, s => Q s o ∧ Along Q ops (act o s)

instance decidableAlong (Q : S → Op → Prop) [∀ s o, Decidable (Q s o)] :
    ∀ (ops : List Op) (s : S), Decidable (Along act Q ops s)
  | [], _ => isTrue trivial
  | o :: ops, s =>
    have := decidableAlong Q ops (act o s)
    inferInstanceAs (Decidable (_ ∧ _))

variable {act} in
theorem along_append (Q : S → Op → Prop) (xs ys : List Op) (s : S) :
    Along act Q (xs ++ ys) s ↔ Along act Q xs s ∧ Along act Q ys (run act xs s) := by
  induction xs generalizing s with
  | nil => exact (and_iff_right trivial).symm
  | cons o xs ih =>
      rw [List.cons_append, Along, Along, ih, run_cons, and_assoc]

variable {act} in
/-- Properties that agree on every operation agree on every run. -/
theorem along_congr {Q R : S → Op → Prop} (h : ∀ s o, Q s o ↔ R s o) (ops : List Op) (s : S) :
    Along act Q ops s ↔ Along act R ops s := by
  induction ops generalizing s with
  | nil => exact Iff.rfl
  | cons o ops ih => exact and_congr (h s o) (ih (act o s))

variable {act} in
theorem Along.and {Q R : S → Op → Prop} {ops : List Op} {s : S} (hq : Along act Q ops s)
    (hr : Along act R ops s) : Along act (fun s o => Q s o ∧ R s o) ops s := by
  induction ops generalizing s with
  | nil => exact trivial
  | cons o ops ih => exact ⟨⟨hq.1, hr.1⟩, ih hq.2 hr.2⟩

/-- The invariant rule, with what is known of each step. -/
theorem run_invariant_along {P : S → Prop} {Q : S → Op → Prop} {ops : List Op} {s : S} (h₀ : P s)
    (hrun : Along act Q ops s) (hstep : ∀ o ∈ ops, ∀ s, P s → Q s o → P (act o s)) :
    P (run act ops s) := by
  induction ops generalizing s with
  | nil => exact h₀
  | cons o ops ih =>
    rw [run_cons]
    exact ih (hstep o List.mem_cons_self s h₀ hrun.1) hrun.2
      (fun o' ho' => hstep o' (List.mem_cons_of_mem o ho'))

section Views

variable {S' Op' : Type*} {act} {act' : Op' → S' → S'} (view : S → S') (g : Op → Op')

/-- **Runs under a view**: what each operation does is seen through the view. -/
theorem run_hom {ops : List Op} (h : ∀ o ∈ ops, ∀ s, view (act o s) = act' (g o) (view s)) (s : S) :
    view (run act ops s) = run act' (ops.map g) (view s) := by
  induction ops generalizing s with
  | nil => rfl
  | cons o ops ih =>
    rw [run_cons, List.map_cons, run_cons, ← h o List.mem_cons_self s]
    exact ih (fun o' ho' => h o' (List.mem_cons_of_mem o ho')) (act o s)

end Views

/-- An execution of some of the operations beforehand does not change what all of them lead to. -/
def Absorbs : Prop :=
  ∀ (full part : List Op) (s : S), part ⊆ full → run act full (run act part s) = run act full s

/-- One pass: the batches from `j` up to (not including) `m`, then `k` operations of batch `m`. -/
def pass (bs : List (List Op)) (j m k : ℕ) : List Op :=
  ((bs.drop j).take (m - j)).flatten ++ ((bs.drop m).headD []).take k

/-- `Interrupted bs s₀ m s`: some passes from `s₀` have led to `s`, and the last of them stopped
inside batch `m` (`m = 0` before any pass).  The next pass starts at a batch `j ≤ m`. -/
inductive Interrupted (bs : List (List Op)) (s₀ : S) : ℕ → S → Prop
  | start : Interrupted bs s₀ 0 s₀
  | stop {m : ℕ} {s : S} (j m' k : ℕ) (h : Interrupted bs s₀ m s) (hj : j ≤ m) (hm : j ≤ m') :
      Interrupted bs s₀ m' (run act (pass bs j m' k) s)

/-- A pass seen through a view. -/
theorem pass_map {Op' : Type*} (g : Op → Op') (bs : List (List Op)) (j m k : ℕ) :
    (pass bs j m k).map g = pass (bs.map (List.map g)) j m k := by
  have hhead : ∀ l : List (List Op), (l.headD []).map g = (l.map (List.map g)).headD [] := by
    intro l
    cases l <;> rfl
  rw [pass, pass, List.map_append, List.map_flatten, List.map_take, List.map_drop, List.map_take,
    hhead, List.map_drop]

/-- A pass starts with the batches it completes. -/
theorem pass_split (bs : List (List Op)) {j i m : ℕ} (hji : j ≤ i) (him : i ≤ m) (k : ℕ) :
    pass bs j m k = ((bs.drop j).take (i - j)).flatten ++ pass bs i m k := by
  have htake : (bs.drop j).take (m - j) = (bs.drop j).take (i - j) ++ (bs.drop i).take (m - i) := by
    rw [show m - j = (i - j) + (m - i) by omega, List.take_add, List.drop_drop,
      show j + (i - j) = i by omega]
  rw [pass, pass, htake, List.flatten_append, List.append_assoc]

/-- What a pass executes is part of what is left to execute from its start. -/
theorem pass_subset (bs : List (List Op)) {j m : ℕ} (hm : j ≤ m) (k : ℕ) :
    pass bs j m k ⊆ (bs.drop j).flatten := by
  have hrest : (bs.drop j).drop (m - j) = bs.drop m := by
    rw [List.drop_drop, show j + (m - j) = m by omega]
  have hsplit : (bs.drop j).flatten
      = ((bs.drop j).take (m - j)).flatten ++ (bs.drop m).flatten := by
    rw [← hrest, ← List.flatten_append, List.take_append_drop]
  have hhead : (bs.drop m).headD [] ⊆ (bs.drop m).flatten := by
    cases bs.drop m with
    | nil => simp
    | cons b rest => simp
  rw [pass, hsplit]
  intro o ho
  rcases List.mem_append.mp ho with ho | ho
  · exact List.mem_append_left _ ho
  · exact List.mem_append_right _ (hhead (List.mem_of_mem_take ho))

theorem drop_flatten_split (bs : List (List Op)) {j i : ℕ} (h : j ≤ i) :
    (bs.drop j).flatten = ((bs.drop j).take (i - j)).flatten ++ (bs.drop i).flatten := by
  have hrest : (bs.drop j).drop (i - j) = bs.drop i := by
    rw [List.drop_drop, show j + (i - j) = i by omega]
  rw [← hrest, ← List.flatten_append, List.take_append_drop]

variable {act} in
/-- An interrupted execution seen through a view. -/
theorem Interrupted.hom {S' Op' : Type*} {act' : Op' → S' → S'} (view : S → S') (g : Op → Op')
    {bs : List (List Op)} (h : ∀ o ∈ bs.flatten, ∀ s, view (act o s) = act' (g o) (view s)) {s₀ s : S}
    {m : ℕ} (hs : Interrupted act bs s₀ m s) :
    Interrupted act' (bs.map (List.map g)) (view s₀) m (view s) := by
  induction hs with
  | start => exact .start
  | stop j m' k hint hj hm ih =>
    have hpass : ∀ o ∈ pass bs j m' k, ∀ s, view (act o s) = act' (g o) (view s) := by
      intro o ho
      apply h
      rw [show bs.flatten = (bs.drop 0).flatten from rfl, drop_flatten_split bs (Nat.zero_le j)]
      exact List.mem_append_right _ (pass_subset bs hm k ho)
    rw [run_hom view g hpass, pass_map]
    exact .stop j m' k ih hj hm

/-- **Resumed executions converge.**  After any number of interrupted passes, executing from any
permitted batch to the end leads where the uninterrupted execution leads.  The induction is on the
passes; the invariant is the statement itself, for every permitted resumption point. -/
theorem resume_converges (habs : Absorbs act) {bs : List (List Op)} {s₀ s : S} {m : ℕ}
    (h : Interrupted act bs s₀ m s) {j : ℕ} (hj : j ≤ m) :
    run act (bs.drop j).flatten s = run act bs.flatten s₀ := by
  induction h generalizing j with
  | start =>
    have hj0 : j = 0 := by omega
    rw [hj0, List.drop_zero]
  | stop i m' k hint him hm ih =>
    rcases Nat.le_total j i with hji | hij
    · -- the new pass starts no later than the interrupted one: it executes all of it again
      have hsub : pass bs i m' k ⊆ (bs.drop j).flatten := by
        rw [drop_flatten_split bs hji]
        exact fun o ho => List.mem_append_right _ (pass_subset bs hm k ho)
      rw [habs _ _ _ hsub]
      exact ih (Nat.le_trans hji him)
    · -- it starts inside the interrupted pass: only what lies behind `j` is executed again
      rw [pass_split bs hij hj k, run_append, habs _ _ _ (pass_subset bs hj k), ← run_append,
        ← drop_flatten_split bs hij]
      exact ih him

end PgSnowflakeCdc.Replay
