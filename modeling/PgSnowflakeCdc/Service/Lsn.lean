import PgSnowflakeCdc.Foundations.Numerals
import Mathlib.Data.Int.Bitwise
import Mathlib.Data.List.Basic

/-!
# LSNs as text and as numbers (`pg_replication.py`)

PostgreSQL writes a log position as `H/L`, two hexadecimal halves; the service computes with one
number.

* `intHex` — `int(text, 16)`;
* `lsnStrToInt`, `lsnIntToStr` — `_lsn_str_to_int` and `_lsn_int_to_str`;
* `LsnText` — a text `H/L` with halves below `2^32`;
* `lsnStrToInt_pair` — a text of two numerals denotes the word of their values;
* `lsn_orderIso` — **both forms of a position say the same, and in the same order.**
-/

namespace PgSnowflakeCdc

open Numerals

/-! ### `int(text, 16)` -/

/-- The characters around a numeral that `int` skips in an ASCII text. -/
def isSpace (c : Char) : Bool := (9 ≤ c.toNat && c.toNat ≤ 13) || c.toNat == 32

/-- A text without such characters around it. -/
def strip (cs : List Char) : List Char := ((cs.dropWhile isSpace).reverse.dropWhile isSpace).reverse

/-- The digits behind the first one, with `acc` read so far; one underscore may stand between two
digits. -/
def hexDigits (acc : ℕ) : List Char → Option ℕ
  | [] => some acc
  | '_' :: c :: cs => (hexadecimal.digitOf c).bind fun d => hexDigits (acc * 16 + d) cs
  | c :: cs => (hexadecimal.digitOf c).bind fun d => hexDigits (acc * 16 + d) cs

/-- One or more digits. -/
def hexNumber : List Char → Option ℕ
  | [] => none
  | c :: cs => (hexadecimal.digitOf c).bind fun d => hexDigits d cs

/-- A number without a sign; it may begin with `0x`, and an underscore may follow that. -/
def unsignedHex : List Char → Option ℕ
  | '0' :: x :: cs =>
    if x = 'x' ∨ x = 'X' then
      match cs with
      | '_' :: cs => hexNumber cs
      | cs => hexNumber cs
    else hexNumber ('0' :: x :: cs)
  | cs => hexNumber cs

/-- `int(text, 16)` for an ASCII text; `none` is `ValueError`. -/
def intHex (text : List Char) : Option ℤ :=
  match strip text with
  | '-' :: cs => (unsignedHex cs).map fun n => -(n : ℤ)
  | '+' :: cs => (unsignedHex cs).map fun n => (n : ℤ)
  | cs => (unsignedHex cs).map fun n => (n : ℤ)

/-! ### The conversions -/

/-- `_lsn_str_to_int`; `none` is `ValueError`, also when the text has not exactly one slash. -/
def lsnStrToInt (lsn : String) : Option ℤ :=
  match lsn.toList.splitOn '/' with
  | [hi, lo] => (intHex hi).bind fun hi => (intHex lo).map fun lo => Int.lor (hi <<< (32 : ℕ)) lo
  | _ => none

/-- `_lsn_int_to_str`: `:X` and `:08X` of the two halves. -/
def lsnIntToStr (lsn : ℕ) : String :=
  String.ofList (hexadecimal.render (lsn >>> 32) ++
    '/' :: hexadecimal.renderPadded 8 (lsn &&& 0xFFFFFFFF))

/-- The LSN column of a polled row, which the driver delivers as text or as a number. -/
inductive LsnVal where
  | text (lsn : String) : LsnVal
  | number (lsn : ℕ) : LsnVal

/-- `_lsn_str_to_int(lsn_val) if isinstance(lsn_val, str) else int(lsn_val)` in `poll_changes`. -/
def polledLsn : LsnVal → Option ℤ
  | .text lsn => lsnStrToInt lsn
  | .number lsn => some lsn

/-! ### Reading a numeral -/

theorem hexadecimal_digit_cases {c : Char} (h : (hexadecimal.digitOf c).isSome) :
    (48 ≤ c.toNat ∧ c.toNat ≤ 57) ∨ (65 ≤ c.toNat ∧ c.toNat ≤ 70) ∨
      (97 ≤ c.toNat ∧ c.toNat ≤ 102) := by
  simp only [hexadecimal] at h
  split at h
  · next hdigit => exact Or.inl hdigit
  · split at h
    · next hupper => exact Or.inr (Or.inl hupper)
    · split at h
      · next hlower => exact Or.inr (Or.inr hlower)
      · cases h

/-- No digit is one of the characters with a meaning of their own. -/
theorem hexadecimal_digit_ne {c : Char} (h : (hexadecimal.digitOf c).isSome) :
    isSpace c = false ∧ c ≠ '_' ∧ c ≠ 'x' ∧ c ≠ 'X' ∧ c ≠ '-' ∧ c ≠ '+' ∧ c ≠ '/' := by
  have hcases := hexadecimal_digit_cases h
  have hne : ∀ x : Char, ¬ ((48 ≤ x.toNat ∧ x.toNat ≤ 57) ∨ (65 ≤ x.toNat ∧ x.toNat ≤ 70) ∨
      (97 ≤ x.toNat ∧ x.toNat ≤ 102)) → c ≠ x := by
    rintro x hx rfl
    exact hx hcases
  refine ⟨?_, hne _ (by decide), hne _ (by decide), hne _ (by decide), hne _ (by decide),
    hne _ (by decide), hne _ (by decide)⟩
  simp only [isSpace, Bool.or_eq_false_iff, Bool.and_eq_false_iff, decide_eq_false_iff_not,
    beq_eq_false_iff_ne]
  omega

theorem hexDigits_eq (acc : ℕ) {cs : List Char} (h : ∀ c ∈ cs, (hexadecimal.digitOf c).isSome) :
    hexDigits acc cs = some (acc * 16 ^ cs.length + hexadecimal.value cs) := by
  induction cs generalizing acc with
  | nil => simp [hexDigits]
  | cons c cs ih =>
      obtain ⟨d, hd⟩ := Option.isSome_iff_exists.mp (h c List.mem_cons_self)
      have hval : hexadecimal.digitVal c = d := by simp only [System.digitVal, hd, Option.getD_some]
      have hplain := (hexadecimal_digit_ne (h c List.mem_cons_self)).2.1
      have hrest := ih (acc * 16 + d) fun c' hc' => h c' (List.mem_cons_of_mem c hc')
      rw [hexDigits, hd, Option.bind_some, hrest, System.value_cons, hval, List.length_cons]
      · show some ((acc * 16 + d) * 16 ^ cs.length + hexadecimal.value cs) =
          some (acc * 16 ^ (cs.length + 1) + (d * 16 ^ cs.length + hexadecimal.value cs))
        congr 1
        ring
      · exact fun _ _ hc => absurd hc hplain

theorem hexNumber_eq {cs : List Char} (h : hexadecimal.IsNumeral cs) :
    hexNumber cs = some (hexadecimal.value cs) := by
  obtain ⟨hne, hdigits⟩ := h
  cases cs with
  | nil => exact absurd rfl hne
  | cons c cs =>
      obtain ⟨d, hd⟩ := Option.isSome_iff_exists.mp (hdigits c List.mem_cons_self)
      have hval : hexadecimal.digitVal c = d := by simp only [System.digitVal, hd, Option.getD_some]
      rw [hexNumber, hd, Option.bind_some,
        hexDigits_eq d fun c' hc' => hdigits c' (List.mem_cons_of_mem c hc'), System.value_cons, hval]
      rfl

theorem unsignedHex_eq {cs : List Char} (h : hexadecimal.IsNumeral cs) :
    unsignedHex cs = some (hexadecimal.value cs) := by
  rw [← hexNumber_eq h]
  unfold unsignedHex
  split
  · next x rest =>
      have hx := hexadecimal_digit_ne (h.2 x (by simp))
      rw [if_neg (by simp [hx.2.2.1, hx.2.2.2.1])]
  · rfl

/-- A text without spaces is left as it is. -/
theorem strip_eq {cs : List Char} (h : ∀ c ∈ cs, isSpace c = false) : strip cs = cs := by
  have hdrop : ∀ xs : List Char, (∀ c ∈ xs, isSpace c = false) → xs.dropWhile isSpace = xs := by
    intro xs hxs
    cases xs with
    | nil => rfl
    | cons x xs => simp [hxs x List.mem_cons_self]
  rw [strip, hdrop cs h, hdrop cs.reverse (by simpa using h), List.reverse_reverse]

/-- **`int(text, 16)` of a numeral is its value.** -/
theorem intHex_eq {cs : List Char} (h : hexadecimal.IsNumeral cs) :
    intHex cs = some (hexadecimal.value cs : ℤ) := by
  have hstrip : strip cs = cs := strip_eq fun c hc => (hexadecimal_digit_ne (h.2 c hc)).1
  rw [intHex, hstrip]
  split
  · next cs' =>
      have hsign := (hexadecimal_digit_ne (h.2 '-' List.mem_cons_self)).2.2.2.2.1
      exact absurd rfl hsign
  · next cs' =>
      have hsign := (hexadecimal_digit_ne (h.2 '+' List.mem_cons_self)).2.2.2.2.2.1
      exact absurd rfl hsign
  · rw [unsignedHex_eq h]
    rfl

/-! ### Two halves -/

/-- The packed halves do not overlap. -/
theorem lor_shiftLeft {hi lo : ℕ} (hlo : lo < 2 ^ 32) :
    Int.lor ((hi : ℤ) <<< (32 : ℕ)) (lo : ℤ) = ((hi * 2 ^ 32 + lo : ℕ) : ℤ) := by
  rw [← Int.natCast_shiftLeft, ← Nat.shiftLeft_eq, Nat.shiftLeft_add_eq_or_of_lt hlo]
  rfl

/-- **A text of two numerals denotes the word of their values.** -/
theorem lsnStrToInt_pair {hi lo : List Char} (hhi : hexadecimal.IsNumeral hi)
    (hlo : hexadecimal.IsNumeral lo) (hlow : hexadecimal.value lo < 2 ^ 32) :
    lsnStrToInt (String.ofList (hi ++ '/' :: lo)) =
      some ((hexadecimal.value hi * 2 ^ 32 + hexadecimal.value lo : ℕ) : ℤ) := by
  have hslash : ∀ cs, hexadecimal.IsNumeral cs → '/' ∉ cs := by
    intro cs hcs hmem
    exact (hexadecimal_digit_ne (hcs.2 '/' hmem)).2.2.2.2.2.2 rfl
  have hsplit : (hi ++ '/' :: lo).splitOn '/' = [hi, lo] := by
    have hparts : ∀ cs ∈ [hi, lo], '/' ∉ cs := by
      intro cs hcs
      rcases List.mem_pair.mp hcs with rfl | rfl
      · exact hslash _ hhi
      · exact hslash _ hlo
    simpa [List.intercalate] using List.splitOn_intercalate '/' hparts (by simp)
  rw [lsnStrToInt, String.toList_ofList, hsplit]
  show ((intHex hi).bind fun hi => (intHex lo).map fun lo => Int.lor (hi <<< (32 : ℕ)) lo) = _
  rw [intHex_eq hhi, intHex_eq hlo, Option.bind_some, Option.map_some, lor_shiftLeft hlow]

/-- **What a number is written as denotes the number.** -/
theorem lsnStrToInt_lsnIntToStr (lsn : ℕ) : lsnStrToInt (lsnIntToStr lsn) = some (lsn : ℤ) := by
  have hlow : lsn &&& 0xFFFFFFFF = lsn % 2 ^ 32 := Nat.and_two_pow_sub_one_eq_mod lsn 32
  have hmod : lsn % 2 ^ 32 < 2 ^ 32 := Nat.mod_lt _ (by omega)
  rw [lsnIntToStr, lsnStrToInt_pair (hexadecimal.isNumeral_render _)
    (hexadecimal.isNumeral_renderPadded 8 _)]
  · rw [System.value_render, System.value_renderPadded, hlow, Nat.shiftRight_eq_div_pow]
    congr 2
    omega
  · rw [System.value_renderPadded, hlow]
    exact hmod

/-- The position named for a polled change is the position polled, whichever form the driver delivers. -/
theorem polledLsn_lsnIntToStr {v : LsnVal} {lsn : ℕ} (h : polledLsn v = some (lsn : ℤ)) :
    polledLsn (.text (lsnIntToStr lsn)) = polledLsn v := by
  rw [h]
  exact lsnStrToInt_lsnIntToStr lsn

example : polledLsn (.text "1A/2B3C4D5E") = some 0x1A2B3C4D5E := by decide +kernel

/-! ### Texts -/

/-- A text `H/L`: hexadecimal digits in either case, with or without leading zeros, both halves below
`2^32`. -/
structure LsnText where
  hi : List Char
  lo : List Char
  hi_isNumeral : hexadecimal.IsNumeral hi
  lo_isNumeral : hexadecimal.IsNumeral lo
  hi_lt : hexadecimal.value hi < 2 ^ 32
  lo_lt : hexadecimal.value lo < 2 ^ 32

namespace LsnText

def text (t : LsnText) : String := String.ofList (t.hi ++ '/' :: t.lo)

def high (t : LsnText) : ℕ := hexadecimal.value t.hi

def low (t : LsnText) : ℕ := hexadecimal.value t.lo

/-- The number the text denotes. -/
def toNat (t : LsnText) : ℕ := t.high * 2 ^ 32 + t.low

theorem lsnStrToInt_text (t : LsnText) : lsnStrToInt t.text = some (t.toNat : ℤ) :=
  lsnStrToInt_pair t.hi_isNumeral t.lo_isNumeral t.lo_lt

theorem toNat_lt (t : LsnText) : t.toNat < 2 ^ 64 := by
  have hhi := t.hi_lt
  have hlo := t.lo_lt
  simp only [toNat, high, low]
  omega

/-- The text the service writes for a number below `2^64`. -/
def ofNat (lsn : ℕ) (h : lsn < 2 ^ 64) : LsnText where
  hi := hexadecimal.render (lsn >>> 32)
  lo := hexadecimal.renderPadded 8 (lsn &&& 0xFFFFFFFF)
  hi_isNumeral := hexadecimal.isNumeral_render _
  lo_isNumeral := hexadecimal.isNumeral_renderPadded 8 _
  hi_lt := by
    rw [System.value_render, Nat.shiftRight_eq_div_pow]
    omega
  lo_lt := by
    rw [System.value_renderPadded]
    exact Nat.lt_of_le_of_lt Nat.and_le_right (by omega)

theorem text_ofNat (lsn : ℕ) (h : lsn < 2 ^ 64) : (ofNat lsn h).text = lsnIntToStr lsn := rfl

theorem toNat_ofNat (lsn : ℕ) (h : lsn < 2 ^ 64) : (ofNat lsn h).toNat = lsn := by
  have hread := (lsnStrToInt_text (ofNat lsn h)).symm.trans (lsnStrToInt_lsnIntToStr lsn)
  exact Int.ofNat.inj (Option.some.inj hread)

/-- Texts compare as their pairs of halves. -/
theorem toNat_lt_iff (t t' : LsnText) :
    t.toNat < t'.toNat ↔ toLex (t.high, t.low) < toLex (t'.high, t'.low) :=
  pack_lt_iff t.lo_lt t'.lo_lt

theorem toNat_le_iff (t t' : LsnText) :
    t.toNat ≤ t'.toNat ↔ toLex (t.high, t.low) ≤ toLex (t'.high, t'.low) :=
  pack_le_iff t.lo_lt t'.lo_lt

end LsnText

/-- **Both forms of a position say the same, and in the same order.**  A number is read back from the
text it is written as, and below `2^64` that text is one of two halves; such a text is read as the
word of its halves, writing that number and reading it again changes nothing, and texts compare by
their pairs of halves as the numbers do. -/
theorem lsn_orderIso :
    (∀ lsn : ℕ, lsnStrToInt (lsnIntToStr lsn) = some (lsn : ℤ)) ∧
      (∀ lsn < 2 ^ 64, ∃ t : LsnText, t.text = lsnIntToStr lsn ∧ t.high * 2 ^ 32 + t.low = lsn) ∧
      (∀ t : LsnText, lsnStrToInt t.text = some ((t.high * 2 ^ 32 + t.low : ℕ) : ℤ) ∧
        lsnStrToInt (lsnIntToStr (t.high * 2 ^ 32 + t.low)) = lsnStrToInt t.text) ∧
      ∀ t t' : LsnText, ∃ lsn lsn' : ℤ, lsnStrToInt t.text = some lsn ∧
        lsnStrToInt t'.text = some lsn' ∧
        (toLex (t.high, t.low) < toLex (t'.high, t'.low) ↔ lsn < lsn') ∧
        (toLex (t.high, t.low) ≤ toLex (t'.high, t'.low) ↔ lsn ≤ lsn') ∧
        ((t.high, t.low) = (t'.high, t'.low) ↔ lsn = lsn') := by
  refine ⟨lsnStrToInt_lsnIntToStr, ?_, ?_, ?_⟩
  · intro lsn h
    exact ⟨.ofNat lsn h, LsnText.text_ofNat lsn h, LsnText.toNat_ofNat lsn h⟩
  · intro t
    have hread := t.lsnStrToInt_text
    exact ⟨hread, (lsnStrToInt_lsnIntToStr t.toNat).trans hread.symm⟩
  · intro t t'
    have hlt := t.toNat_lt_iff t'
    have hle := t.toNat_le_iff t'
    have hge := t'.toNat_le_iff t
    refine ⟨t.toNat, t'.toNat, t.lsnStrToInt_text, t'.lsnStrToInt_text, ?_, ?_, ?_⟩
    · rw [← hlt]
      omega
    · rw [← hle]
      omega
    · have heq : (t.high, t.low) = (t'.high, t'.low) ↔ t.toNat ≤ t'.toNat ∧ t'.toNat ≤ t.toNat := by
        rw [hle, hge, ← le_antisymm_iff]
        exact toLex.injective.eq_iff.symm
      rw [heq]
      omega

end PgSnowflakeCdc
