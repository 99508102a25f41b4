import Mathlib.Algebra.Ring.Nat
import PgSnowflakeCdc.Foundations.OrderedDict

/-!
# Counters in a dictionary

A program counts under keys, in numbers whose addition is exact only up to a bound (the whole numbers of
a floating-point format, or of a machine word).

* `Adder` — such an addition;
* `total` — what a list of counters holds under the keys of a set;
* `Adder.count`, `total_count` — **counting under a key adds to the totals of its key sets, and to no
  other**.
-/

namespace PgSnowflakeCdc.Tally

open OrderedDict

variable {K : Type*}

/-- What the counters of a list hold under the keys of `p`. -/
def total (p : K → Bool) (l : List (K × ℕ)) : ℕ := ((l.filter fun e => p e.1).map Prod.snd).sum

@[simp] theorem total_nil (p : K → Bool) : total p [] = 0 := rfl

theorem total_cons (p : K → Bool) (e : K × ℕ) (l : List (K × ℕ)) :
    total p (e :: l) = (if p e.1 then e.2 else 0) + total p l := by
  by_cases h : p e.1 = true
  · simp [total, h]
  · simp [total, h]

theorem total_append (p : K → Bool) (l l' : List (K × ℕ)) :
    total p (l ++ l') = total p l + total p l' := by
  rw [total, List.filter_append, List.map_append, List.sum_append, total, total]

variable [DecidableEq K]

/-- A counter that is there is part of the total of its key sets. -/
theorem find_le_total {p : K → Bool} {k : K} (hp : p k = true) (l : List (K × ℕ)) :
    (find k l).getD 0 ≤ total p l := by
  induction l with
  | nil => exact Nat.le_refl 0
  | cons e l ih =>
      obtain ⟨k', n⟩ := e
      rw [find, total_cons]
      by_cases h : k' = k
      · rw [if_pos h, h, if_pos hp, Option.getD_some]
        exact Nat.le_add_right _ _
      · rw [if_neg h]
        omega

/-- A new value takes the place of the old one. -/
theorem total_assign (p : K → Bool) (k : K) (n : ℕ) (l : List (K × ℕ)) :
    total p (assign k n l) + (if p k then (find k l).getD 0 else 0) =
      total p l + (if p k then n else 0) := by
  induction l with
  | nil => simp [assign, find, total_cons]
  | cons e l ih =>
      obtain ⟨k', m⟩ := e
      by_cases h : k' = k
      · subst h
        simp only [assign, find, if_true, total_cons, Option.getD_some]
        omega
      · simp only [assign, find, if_neg h, total_cons]
        omega

/-- Addition of counts, exact up to a bound. -/
structure Adder where
  add : ℕ → ℕ → ℕ
  bound : ℕ
  exact : ∀ a b, a + b ≤ bound → add a b = a + b

/-- Whole numbers in double precision: exact up to 2⁵³. -/
def Adder.double : Adder where
  add a b := a + b
  bound := 2 ^ 53
  exact _ _ _ := rfl

/-- `counters[k] = counters.get(k, 0) + n`. -/
def Adder.count (A : Adder) (d : Dict K ℕ) (k : K) (n : ℕ) : Dict K ℕ :=
  d.set k (A.add ((d.get? k).getD 0) n)

/-- **Counting under a key adds to the totals of its key sets**, as long as they stay within the bound. -/
theorem total_count (A : Adder) (p : K → Bool) (d : Dict K ℕ) (k : K) (n : ℕ)
    (h : total p d.entries + (if p k then n else 0) ≤ A.bound) :
    total p (A.count d k n).entries = total p d.entries + (if p k then n else 0) := by
  have hassign := total_assign p k (A.add ((d.get? k).getD 0) n) d.entries
  by_cases hp : p k = true
  · have hle := find_le_total hp d.entries
    rw [if_pos hp] at h
    rw [if_pos hp, if_pos hp, A.exact _ _ (by rw [Dict.get?]; omega)] at hassign
    rw [if_pos hp]
    rw [Dict.get?] at hassign
    show total p (assign k _ d.entries) = _
    rw [A.exact _ _ (by rw [Dict.get?]; omega), Dict.get?]
    omega
  · rw [if_neg hp, if_neg hp] at hassign
    rw [if_neg hp]
    exact hassign

end PgSnowflakeCdc.Tally
