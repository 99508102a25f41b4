import Mathlib.Data.Nat.Digits.Lemmas
import Mathlib.Data.Prod.Lex
import Mathlib.Tactic.Common
import Mathlib.Tactic.Ring

/-!
# Positional numerals

Texts of digits in some base, as programs print and read them, and words made of two halves.

* `System` — a base, a symbol for each digit, and the characters read as digits (upper and lower case
  may be read as the same digit);
* `value` — the number a text of digits denotes (`value_cons`);
* `render` / `renderPadded` — the shortest text of a number, and that text filled up with zeros
  (`value_render`, `value_renderPadded`);
* `pack_lt_iff`, `pack_le_iff` — words compare as their pairs of halves.
-/

namespace PgSnowflakeCdc.Numerals

/-- A base with its digits: how they are printed, and which characters are read as digits. -/
structure System where
  base : ℕ
  one_lt_base : 1 < base
  symbol : ℕ → Char
  digitOf : Char → Option ℕ
  digitOf_symbol : ∀ d < base, digitOf (symbol d) = some d

namespace System

variable (S : System)

def digitVal (c : Char) : ℕ := (S.digitOf c).getD 0

/-- The number a text denotes, its first character being the most significant digit. -/
def value (cs : List Char) : ℕ := Nat.ofDigits S.base (cs.map S.digitVal).reverse

/-- A text of one or more digits. -/
def IsNumeral (cs : List Char) : Prop := cs ≠ [] ∧ ∀ c ∈ cs, (S.digitOf c).isSome

instance (cs : List Char) : Decidable (S.IsNumeral cs) := inferInstanceAs (Decidable (_ ∧ _))

/-- The shortest text of a number; zero is one digit long. -/
def render (n : ℕ) : List Char :=
  if n = 0 then [S.symbol 0] else (S.base.digits n).reverse.map S.symbol

/-- The text of a number, filled up on the left with zeros. -/
def renderPadded (width n : ℕ) : List Char := List.leftpad width (S.symbol 0) (S.render n)

/-! ### Values -/

@[simp] theorem digitVal_symbol {d : ℕ} (h : d < S.base) : S.digitVal (S.symbol d) = d := by
  simp only [digitVal, S.digitOf_symbol d h, Option.getD_some]

@[simp] theorem value_nil : S.value [] = 0 := rfl

/-- The first digit counts as often as there are texts of the length of the rest. -/
theorem value_cons (c : Char) (cs : List Char) :
    S.value (c :: cs) = S.digitVal c * S.base ^ cs.length + S.value cs := by
  simp only [value, List.map_cons, List.reverse_cons, Nat.ofDigits_append, Nat.ofDigits_singleton,
    List.length_reverse, List.length_map]
  ring

/-- Leading zeros do not change the number. -/
theorem value_zeros_append (k : ℕ) (cs : List Char) :
    S.value (List.replicate k (S.symbol 0) ++ cs) = S.value cs := by
  have hzero : S.digitVal (S.symbol 0) = 0 := S.digitVal_symbol (by have := S.one_lt_base; omega)
  induction k with
  | zero => rfl
  | succ k ih =>
      rw [List.replicate_succ, List.cons_append, value_cons, hzero, ih]
      omega

/-! ### Rendering -/

theorem value_map_symbol {ds : List ℕ} (h : ∀ d ∈ ds, d < S.base) :
    S.value (ds.reverse.map S.symbol) = Nat.ofDigits S.base ds := by
  have hdigits : (ds.reverse.map S.symbol).map S.digitVal = ds.reverse := by
    rw [List.map_map]
    conv_rhs => rw [← List.map_id ds.reverse]
    apply List.map_congr_left
    intro d hd
    exact S.digitVal_symbol (h d (List.mem_reverse.mp hd))
  rw [value, hdigits, List.reverse_reverse]

/-- **What a number is rendered as denotes the number.** -/
@[simp] theorem value_render (n : ℕ) : S.value (S.render n) = n := by
  have hbase := S.one_lt_base
  by_cases hn : n = 0
  · subst hn
    simp [render, value_cons, S.digitVal_symbol (show 0 < S.base by omega)]
  · rw [render, if_neg hn, S.value_map_symbol fun d hd => Nat.digits_lt_base hbase hd,
      Nat.ofDigits_digits]

/-- Filled up with zeros, too. -/
@[simp] theorem value_renderPadded (width n : ℕ) : S.value (S.renderPadded width n) = n := by
  rw [renderPadded, List.leftpad, value_zeros_append, value_render]

theorem isNumeral_render (n : ℕ) : S.IsNumeral (S.render n) := by
  have hbase := S.one_lt_base
  by_cases hn : n = 0
  · subst hn
    simp [render, IsNumeral, S.digitOf_symbol 0 (show 0 < S.base by omega)]
  · rw [render, if_neg hn]
    constructor
    · simpa using Nat.digits_ne_nil_iff_ne_zero.mpr hn
    · intro c hc
      obtain ⟨d, hd, rfl⟩ := List.mem_map.mp hc
      simp [S.digitOf_symbol d (Nat.digits_lt_base hbase (List.mem_reverse.mp hd))]

theorem isNumeral_renderPadded (width n : ℕ) : S.IsNumeral (S.renderPadded width n) := by
  have hbase := S.one_lt_base
  obtain ⟨hne, hdigits⟩ := S.isNumeral_render n
  rw [renderPadded, List.leftpad]
  constructor
  · simp [hne]
  · intro c hc
    rcases List.mem_append.mp hc with hc | hc
    · rw [List.eq_of_mem_replicate hc, S.digitOf_symbol 0 (by omega)]
      rfl
    · exact hdigits c hc

end System

/-! ### Hexadecimal -/

/-- Upper-case digits are printed; either case is read. -/
def hexadecimal : System where
  base := 16
  one_lt_base := by omega
  symbol d := Char.ofNat (if d < 10 then 48 + d else 55 + d)
  digitOf c :=
    if 48 ≤ c.toNat ∧ c.toNat ≤ 57 then some (c.toNat - 48)
    else if 65 ≤ c.toNat ∧ c.toNat ≤ 70 then some (c.toNat - 55)
    else if 97 ≤ c.toNat ∧ c.toNat ≤ 102 then some (c.toNat - 87)
    else none
  digitOf_symbol := by decide

/-! ### Two halves of a word -/

section Pack

variable {B hi lo hi' lo' : ℕ} (hlo : lo < B) (hlo' : lo' < B)

include hlo hlo'

/-- **Words compare as their pairs of halves.** -/
theorem pack_lt_iff : hi * B + lo < hi' * B + lo' ↔ toLex (hi, lo) < toLex (hi', lo') := by
  rw [Prod.Lex.toLex_lt_toLex]
  dsimp only
  rcases Nat.lt_trichotomy hi hi' with h | h | h
  · have hstep : (hi + 1) * B ≤ hi' * B := Nat.mul_le_mul_right B h
    rw [Nat.add_mul, Nat.one_mul] at hstep
    exact iff_of_true (by omega) (Or.inl h)
  · subst h
    constructor
    · exact fun hlt => Or.inr ⟨rfl, by omega⟩
    · intro hlt
      have hlow := hlt.resolve_left (Nat.lt_irrefl hi)
      omega
  · have hstep : (hi' + 1) * B ≤ hi * B := Nat.mul_le_mul_right B h
    rw [Nat.add_mul, Nat.one_mul] at hstep
    exact iff_of_false (by omega) (by omega)

theorem pack_le_iff : hi * B + lo ≤ hi' * B + lo' ↔ toLex (hi, lo) ≤ toLex (hi', lo') := by
  rw [← not_lt, ← not_lt, pack_lt_iff hlo' hlo]

end Pack

end PgSnowflakeCdc.Numerals
