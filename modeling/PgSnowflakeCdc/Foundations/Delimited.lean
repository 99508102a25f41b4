import Mathlib.Data.List.Basic
import Mathlib.Tactic.Common

/-!
# Fields between delimiters

Fields joined by a delimiter, `[x].intercalate`, and read back by splitting there, `splitOn x`.

* `mem_intercalate_iff` — what a joined text contains, the delimiter aside, is in one of its fields;
* `not_mem_of_mem_splitOn` — a field that was read does not contain the delimiter;
* `splitOn_intercalate_iff` — **fields read back exactly when none contains the delimiter**.
-/

namespace PgSnowflakeCdc.Delimited

variable {α : Type*} {x y : α}

theorem mem_intercalate_iff (h : y ≠ x) {fields : List (List α)} :
    y ∈ [x].intercalate fields ↔ ∃ field ∈ fields, y ∈ field := by
  induction fields with
  | nil => simp
  | cons first rest ih =>
      by_cases hrest : rest = []
      · simp [hrest]
      · rw [List.intercalate_cons_of_ne_nil hrest]
        simp [ih, h]

variable [DecidableEq α]

/-- The induction is on the text; only the first field grows with a character that is no delimiter. -/
theorem not_mem_of_mem_splitOn {xs field : List α} (h : field ∈ xs.splitOn x) : x ∉ field := by
  induction xs generalizing field with
  | nil =>
      rw [List.splitOn_nil, List.mem_singleton] at h
      rw [h]
      exact List.not_mem_nil
  | cons a xs ih =>
      rw [List.splitOn_cons_eq_if_modifyHead] at h
      split at h
      · rcases List.mem_cons.mp h with hnil | htail
        · rw [hnil]
          exact List.not_mem_nil
        · exact ih htail
      · next hne =>
        have hax : x ≠ a := by
          intro heq
          exact hne (beq_iff_eq.mpr heq.symm)
        obtain ⟨first, rest, hsplit⟩ := List.exists_cons_of_ne_nil (List.splitOn_ne_nil x xs)
        rw [hsplit] at h ih
        rcases List.mem_cons.mp h with hfirst | hrest
        · rw [hfirst, List.mem_cons, not_or]
          exact ⟨hax, ih List.mem_cons_self⟩
        · exact ih (List.mem_cons_of_mem _ hrest)

theorem splitOn_intercalate_iff {fields : List (List α)} (hne : fields ≠ []) :
    ([x].intercalate fields).splitOn x = fields ↔ ∀ field ∈ fields, x ∉ field := by
  constructor
  · intro h field hfield
    rw [← h] at hfield
    exact not_mem_of_mem_splitOn hfield
  · intro h
    exact List.splitOn_intercalate x h hne

end PgSnowflakeCdc.Delimited
