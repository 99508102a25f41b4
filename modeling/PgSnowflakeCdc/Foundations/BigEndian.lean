import Mathlib.Algebra.Order.Group.Unbundled.Int
import Mathlib.Tactic.Positivity
import Mathlib.Tactic.Common
import Mathlib.Tactic.Ring

/-!
# Big-endian words and positional reads

The arithmetic behind any reader of network-order binary formats:

* `beBytes k n` / `beNat` — the `k` bytes of a word, and the number a byte list denotes
  (`beNat_beBytes`: exact below `256 ^ k`);
* `wrap` / `twosComplement` — a signed word through its unsigned image;
* the `drop` lemmas — what a reader with a hand-kept offset sees when a field sits at that
  offset: the field itself, room for it, and the tail at the advanced offset.
-/

namespace PgSnowflakeCdc.BigEndian

/-! ### Unsigned words -/

/-- The number a big-endian byte list denotes. -/
def beNat (bs : List UInt8) : ℕ := bs.foldl (fun acc b => 256 * acc + b.toNat) 0

/-- The `k` big-endian bytes of `n` (of `n` modulo `256 ^ k`). -/
def beBytes : ℕ → ℕ → List UInt8
  | 0, _ => []
  | k + 1, n => beBytes k (n / 256) ++ [UInt8.ofNat (n % 256)]

@[simp] theorem beBytes_length (k n : ℕ) : (beBytes k n).length = k := by
  induction k generalizing n with
  | zero => rfl
  | succ k ih => rw [beBytes, List.length_append, ih, List.length_singleton]

theorem beNat_snoc (bs : List UInt8) (b : UInt8) :
    beNat (bs ++ [b]) = 256 * beNat bs + b.toNat := by
  simp [beNat, List.foldl_append]

/-- **Writing then reading a word is exact** below `256 ^ k`. -/
theorem beNat_beBytes (k n : ℕ) (h : n < 256 ^ k) : beNat (beBytes k n) = n := by
  induction k generalizing n with
  | zero =>
    rw [pow_zero] at h
    have hn : n = 0 := by omega
    rw [hn]
    rfl
  | succ k ih =>
    have hdiv : n / 256 < 256 ^ k := by
      rw [pow_succ] at h
      exact Nat.div_lt_of_lt_mul (by rw [Nat.mul_comm]; exact h)
    have hbyte : (UInt8.ofNat (n % 256)).toNat = n % 256 := by
      rw [UInt8.toNat_ofNat']
      omega
    rw [beBytes, beNat_snoc, ih _ hdiv, hbyte]
    omega

theorem beNat_lt (bs : List UInt8) : beNat bs < 256 ^ bs.length := by
  induction bs using List.reverseRecOn with
  | nil => exact Nat.one_pos
  | append_singleton bs b ih =>
    have hb := UInt8.toNat_lt b
    rw [beNat_snoc, List.length_append, List.length_singleton, pow_succ]
    omega

/-- **Reading then writing a word is exact.** -/
theorem beBytes_beNat (bs : List UInt8) : beBytes bs.length (beNat bs) = bs := by
  induction bs using List.reverseRecOn with
  | nil => rfl
  | append_singleton bs b ih =>
    have hb := UInt8.toNat_lt b
    have hdiv : (256 * beNat bs + b.toNat) / 256 = beNat bs := by omega
    have hmod : (256 * beNat bs + b.toNat) % 256 = b.toNat := by omega
    rw [beNat_snoc, List.length_append, List.length_singleton, beBytes, hdiv, hmod, ih,
      UInt8.ofNat_toNat]

/-- Words that fit their field are told apart by their bytes. -/
theorem beBytes_inj {k n n' : ℕ} (hn : n < 256 ^ k) (hn' : n' < 256 ^ k)
    (h : beBytes k n = beBytes k n') : n = n' := by
  rw [← beNat_beBytes k n hn, h, beNat_beBytes k n' hn']

/-- A word in front of a byte list is read off it. -/
theorem word_append_inj {k n n' : ℕ} (hn : n < 256 ^ k) (hn' : n' < 256 ^ k) {xs ys : List UInt8}
    (h : beBytes k n ++ xs = beBytes k n' ++ ys) : n = n' ∧ xs = ys := by
  obtain ⟨hword, hrest⟩ := List.append_inj h (by rw [beBytes_length, beBytes_length])
  exact ⟨beBytes_inj hn hn' hword, hrest⟩

/-! ### Signed words -/

/-- The signed reading of an unsigned `bits`-bit word. -/
def twosComplement (bits n : ℕ) : ℤ := if n < 2 ^ (bits - 1) then n else (n : ℤ) - 2 ^ bits

/-- The unsigned image of a signed `bits`-bit word. -/
def wrap (bits : ℕ) (i : ℤ) : ℕ := (i % 2 ^ bits).toNat

theorem wrap_lt (bits : ℕ) (i : ℤ) : wrap bits i < 2 ^ bits := by
  have hpos : (0 : ℤ) < 2 ^ bits := by positivity
  have hlt : i % 2 ^ bits < 2 ^ bits := Int.emod_lt_of_pos i hpos
  rw [wrap, Int.toNat_lt (Int.emod_nonneg i (ne_of_gt hpos))]
  exact_mod_cast hlt

/-- **Signed words survive the round trip** through their unsigned image. -/
theorem twosComplement_wrap (b : ℕ) (i : ℤ) (hlo : -2 ^ b ≤ i) (hhi : i < 2 ^ b) :
    twosComplement (b + 1) (wrap (b + 1) i) = i := by
  have hsucc : (2 : ℤ) ^ (b + 1) = 2 * 2 ^ b := by ring
  have hpos : (0 : ℤ) < 2 ^ b := by positivity
  rcases lt_or_ge i 0 with hneg | hnonneg
  · have hmod : i % 2 ^ (b + 1) = i + 2 ^ (b + 1) := by
      rw [← Int.add_emod_right]
      exact Int.emod_eq_of_lt (by omega) (by omega)
    have hwrap : ((wrap (b + 1) i : ℕ) : ℤ) = i + 2 ^ (b + 1) := by
      rw [wrap, hmod, Int.toNat_of_nonneg (by omega)]
    have hlarge : ¬ wrap (b + 1) i < 2 ^ (b + 1 - 1) := by
      rw [Nat.add_sub_cancel]
      intro hlt
      have : ((wrap (b + 1) i : ℕ) : ℤ) < 2 ^ b := by exact_mod_cast hlt
      omega
    rw [twosComplement, if_neg hlarge, hwrap]
    omega
  · have hmod : i % 2 ^ (b + 1) = i := Int.emod_eq_of_lt hnonneg (by omega)
    have hwrap : ((wrap (b + 1) i : ℕ) : ℤ) = i := by
      rw [wrap, hmod, Int.toNat_of_nonneg hnonneg]
    have hsmall : wrap (b + 1) i < 2 ^ (b + 1 - 1) := by
      rw [Nat.add_sub_cancel]
      have : ((wrap (b + 1) i : ℕ) : ℤ) < 2 ^ b := by omega
      exact_mod_cast this
    rw [twosComplement, if_pos hsmall, hwrap]

/-! ### Reading at an offset -/

section Positions

variable {α : Type*} {data field tail : List α} {off : ℕ}

theorem take_field (h : data.drop off = field ++ tail) :
    (data.drop off).take field.length = field := by
  rw [h, List.take_left]

theorem drop_past_field (h : data.drop off = field ++ tail) :
    data.drop (off + field.length) = tail := by
  rw [← List.drop_drop, h, List.drop_left]

theorem room_for_field (h : data.drop off = field ++ tail) (hf : field ≠ []) :
    off + field.length ≤ data.length := by
  have hlen := congrArg List.length h
  have hpos : 0 < field.length := List.length_pos_iff.mpr hf
  rw [List.length_drop, List.length_append] at hlen
  omega

theorem getElem?_at {a : α} (h : data.drop off = a :: tail) : data[off]? = some a := by
  have h0 : (data.drop off)[0]? = some a := by rw [h]; rfl
  rwa [List.getElem?_drop, Nat.add_zero] at h0

theorem drop_past_byte {a : α} (h : data.drop off = a :: tail) : data.drop (off + 1) = tail := by
  have hfield : data.drop off = [a] ++ tail := h
  exact drop_past_field hfield

end Positions

end PgSnowflakeCdc.BigEndian
