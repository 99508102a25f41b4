import Mathlib.Algebra.Order.Group.Nat
import Mathlib.Data.List.Nodup
import Mathlib.Logic.Equiv.Basic
import Mathlib.Tactic.Common

/-!
# `ROW_NUMBER()` deduplication over an arbitrary engine order

`QUALIFY ROW_NUMBER() OVER (PARTITION BY key ORDER BY …) = 1` keeps one row of every partition.
Which one depends on the order in which the engine numbers the rows of the partition; rows that
the `ORDER BY` leaves equal may be numbered in any order.  An engine order is an injective rank on
source positions (`RowOrder`), so ties are broken, but in an arbitrary way.

* `qualifyFirst` — the rows numbered `1`;
* `nodup_keys_qualifyFirst`, `exists_mem_qualifyFirst` — exactly one survivor per key;
* `RowOrder.Respects` — the orders an `ORDER BY` permits;
* `KeepsLast` — every survivor is the last row of its key; `keepsLast_lastFirst` gives an order
  that does so.
-/

namespace PgSnowflakeCdc.RowNumbering

variable {α κ : Type*}

/-! ### Keyed lists without duplicate keys -/

section Keyed

variable [DecidableEq κ] (key : α → κ)

/-- The row found under a key is the row with that key. -/
theorem find?_key_of_mem {l : List α} (hn : (l.map key).Nodup) {a : α} (ha : a ∈ l) :
    l.find? (fun x => key x = key a) = some a := by
  cases hf : l.find? (fun x => key x = key a) with
  | none =>
    rw [List.find?_eq_none] at hf
    exact absurd (decide_eq_true rfl) (hf a ha)
  | some b =>
    have hb : b ∈ l := List.mem_of_find?_eq_some hf
    have hk : key b = key a := by simpa using List.find?_some hf
    rw [List.inj_on_of_nodup_map hn hb ha hk]

end Keyed

/-! ### Engine orders and row numbers -/

/-- An order in which an engine may number source rows: an injective rank on their positions. -/
structure RowOrder where
  rank : ℕ → ℕ
  injective : Function.Injective rank

/-- The order `ORDER BY` permits: inside a partition, a row that sorts before another has the
smaller rank.  Nothing is asked of rows that sort equal. -/
def RowOrder.Respects (o : RowOrder) (key : α → κ) (before : α → α → Prop) (rows : List α) : Prop :=
  ∀ i j a b, rows[i]? = some a → rows[j]? = some b → key a = key b → before a b →
    o.rank i < o.rank j

variable [DecidableEq κ] (key : α → κ) (o : RowOrder)

/-- The number of a row in its partition: one more than the rows of the partition ranked before. -/
def rowNumber (rows : List α) (p : α × ℕ) : ℕ :=
  1 + rows.zipIdx.countP (fun q => key q.1 = key p.1 ∧ o.rank q.2 < o.rank p.2)

/-- The rows numbered `1`, in source order. -/
def qualifyFirst (rows : List α) : List α :=
  (rows.zipIdx.filter (fun p => rowNumber key o rows p = 1)).map Prod.fst

theorem rowNumber_eq_one_iff (rows : List α) (a : α) (i : ℕ) :
    rowNumber key o rows (a, i) = 1 ↔
      ∀ j b, rows[j]? = some b → key b = key a → o.rank i ≤ o.rank j := by
  rw [rowNumber, Nat.add_eq_left, List.countP_eq_zero]
  constructor
  · intro h j b hj hk
    have hmem : (b, j) ∈ rows.zipIdx := List.mem_zipIdx_iff_getElem?.mpr hj
    have hnot := h (b, j) hmem
    simp only [decide_eq_true_eq, not_and, not_lt] at hnot
    exact hnot hk
  · rintro h ⟨b, j⟩ hmem
    have hj : rows[j]? = some b := List.mem_zipIdx_iff_getElem?.mp hmem
    simp only [decide_eq_true_eq, not_and, not_lt]
    exact h j b hj

/-- A surviving row sits at a position of least rank among the rows of its key. -/
theorem mem_qualifyFirst_iff (rows : List α) (a : α) :
    a ∈ qualifyFirst key o rows ↔
      ∃ i, rows[i]? = some a ∧ ∀ j b, rows[j]? = some b → key b = key a → o.rank i ≤ o.rank j := by
  simp only [qualifyFirst, List.mem_map, List.mem_filter, decide_eq_true_eq]
  constructor
  · rintro ⟨⟨b, i⟩, ⟨hmem, hnum⟩, rfl⟩
    exact ⟨i, List.mem_zipIdx_iff_getElem?.mp hmem, (rowNumber_eq_one_iff key o rows b i).mp hnum⟩
  · rintro ⟨i, hi, hleast⟩
    exact ⟨(a, i), ⟨List.mem_zipIdx_iff_getElem?.mpr hi,
      (rowNumber_eq_one_iff key o rows a i).mpr hleast⟩, rfl⟩

theorem mem_of_mem_qualifyFirst {rows : List α} {a : α} (h : a ∈ qualifyFirst key o rows) :
    a ∈ rows := by
  obtain ⟨i, hi, -⟩ := (mem_qualifyFirst_iff key o rows a).mp h
  exact List.mem_of_getElem? hi

/-- **No key survives twice.** -/
theorem nodup_keys_qualifyFirst (rows : List α) : ((qualifyFirst key o rows).map key).Nodup := by
  have hidx : (rows.zipIdx.filter (fun p => rowNumber key o rows p = 1)).Pairwise
      (fun p q => p.2 ≠ q.2) := by
    have hnd : (rows.zipIdx.map Prod.snd).Nodup := by
      rw [List.zipIdx_map_snd]
      exact List.nodup_range'
    exact (List.pairwise_map.mp hnd).filter _
  rw [qualifyFirst, List.map_map]
  apply List.pairwise_map.mpr
  refine hidx.imp_of_mem ?_
  rintro ⟨a, i⟩ ⟨b, j⟩ hp hq hij hkey
  simp only [List.mem_filter, decide_eq_true_eq] at hp hq
  have hi : rows[i]? = some a := List.mem_zipIdx_iff_getElem?.mp hp.1
  have hj : rows[j]? = some b := List.mem_zipIdx_iff_getElem?.mp hq.1
  have hle : o.rank i ≤ o.rank j :=
    (rowNumber_eq_one_iff key o rows a i).mp hp.2 j b hj hkey.symm
  have hge : o.rank j ≤ o.rank i :=
    (rowNumber_eq_one_iff key o rows b j).mp hq.2 i a hi hkey
  exact hij (o.injective (le_antisymm hle hge))

/-- **Every key of the source survives.**  Descend in rank until no row of the key is ranked
before. -/
theorem exists_mem_qualifyFirst {rows : List α} {a : α} (h : a ∈ rows) :
    ∃ b ∈ qualifyFirst key o rows, key b = key a := by
  obtain ⟨i, hi⟩ := List.mem_iff_getElem?.mp h
  induction hr : o.rank i using Nat.strong_induction_on generalizing i a with
  | _ r ih =>
    by_cases hleast : ∀ j b, rows[j]? = some b → key b = key a → o.rank i ≤ o.rank j
    · exact ⟨a, (mem_qualifyFirst_iff key o rows a).mpr ⟨i, hi, hleast⟩, rfl⟩
    · push Not at hleast
      obtain ⟨j, b, hj, hk, hlt⟩ := hleast
      obtain ⟨c, hc, hck⟩ := ih (o.rank j) (by omega) (List.mem_of_getElem? hj) j hj rfl
      exact ⟨c, hc, hck.trans hk⟩

/-- A row of least rank in its partition is the survivor of its key. -/
theorem find?_qualifyFirst {rows : List α} {a : α} {i : ℕ} (hi : rows[i]? = some a)
    (hleast : ∀ j b, rows[j]? = some b → key b = key a → o.rank i ≤ o.rank j) :
    (qualifyFirst key o rows).find? (fun x => key x = key a) = some a :=
  find?_key_of_mem key (nodup_keys_qualifyFirst key o rows)
    ((mem_qualifyFirst_iff key o rows a).mpr ⟨i, hi, hleast⟩)

theorem find?_qualifyFirst_eq_none {rows : List α} {k : κ} (h : ∀ a ∈ rows, key a ≠ k) :
    (qualifyFirst key o rows).find? (fun x => key x = k) = none := by
  rw [List.find?_eq_none]
  intro a ha
  simpa using h a (mem_of_mem_qualifyFirst key o ha)

/-- With distinct keys there is nothing to drop, whatever the order. -/
theorem qualifyFirst_of_nodup {rows : List α} (hn : (rows.map key).Nodup) :
    qualifyFirst key o rows = rows := by
  have hall : rows.zipIdx.filter (fun p => rowNumber key o rows p = 1) = rows.zipIdx := by
    rw [List.filter_eq_self]
    rintro ⟨a, i⟩ hmem
    have hi : rows[i]? = some a := List.mem_zipIdx_iff_getElem?.mp hmem
    rw [decide_eq_true_eq, rowNumber_eq_one_iff]
    intro j b hj hk
    have hia : (rows.map key)[i]? = some (key a) := by rw [List.getElem?_map, hi]; rfl
    have hjb : (rows.map key)[j]? = some (key a) := by rw [List.getElem?_map, hj, ← hk]; rfl
    obtain ⟨hilt, -⟩ := List.getElem?_eq_some_iff.mp hia
    rw [(List.getElem?_inj hilt hn).mp (hia.trans hjb.symm)]
  rw [qualifyFirst, hall, List.zipIdx_map_fst]

/-- **A row that sorts before the others of its key survives**, in every order that `ORDER BY`
permits; it may be repeated. -/
theorem find?_qualifyFirst_of_before {before : α → α → Prop} {rows : List α}
    (ho : o.Respects key before rows) {a : α} (ha : a ∈ rows)
    (hfirst : ∀ b ∈ rows, key b = key a → b = a ∨ before a b) :
    (qualifyFirst key o rows).find? (fun x => key x = key a) = some a := by
  obtain ⟨b, hb, hkey⟩ := exists_mem_qualifyFirst key o ha
  obtain ⟨i, hi, hleast⟩ := (mem_qualifyFirst_iff key o rows b).mp hb
  obtain ⟨j, hj⟩ := List.mem_iff_getElem?.mp ha
  have hba : b = a := by
    refine (hfirst b (mem_of_mem_qualifyFirst key o hb) hkey).resolve_right fun hbefore => ?_
    exact absurd (hleast j a hj hkey.symm) (not_le.mpr (ho j i a b hj hi hkey.symm hbefore))
  rw [← hba]
  exact find?_key_of_mem key (nodup_keys_qualifyFirst key o rows) hb

/-- **Repeated rows are dropped, and nothing else**, exactly when the key tells the rows apart. -/
theorem qualifyFirst_perm_iff {rows copies : List α} (h : ∀ a, a ∈ copies ↔ a ∈ rows) :
    (qualifyFirst key o copies).Perm rows ↔ (rows.map key).Nodup := by
  constructor
  · intro hperm
    exact (hperm.map key).nodup_iff.mp (nodup_keys_qualifyFirst key o copies)
  · intro hn
    have hnodup := List.Nodup.of_map key (nodup_keys_qualifyFirst key o copies)
    rw [List.perm_ext_iff_of_nodup hnodup (List.Nodup.of_map key hn)]
    intro a
    constructor
    · exact fun ha => (h a).mp (mem_of_mem_qualifyFirst key o ha)
    · intro ha
      obtain ⟨b, hb, hkey⟩ := exists_mem_qualifyFirst key o ((h a).mpr ha)
      have hbmem := (h b).mp (mem_of_mem_qualifyFirst key o hb)
      rwa [← List.inj_on_of_nodup_map hn hbmem ha hkey]

/-! ### Keeping the last row -/

/-- The survivor of every key is its last row. -/
def KeepsLast (rows : List α) : Prop :=
  ∀ k, (qualifyFirst key o rows).find? (fun x => key x = k)
    = (rows.filter (fun x => key x = k)).getLast?

/-- The row behind which no further row of its key comes is the last one of its key. -/
theorem getLast?_filter_of_last {rows : List α} {a : α} {i : ℕ} (hi : rows[i]? = some a)
    (hlast : ∀ j b, rows[j]? = some b → key b = key a → j ≤ i) :
    (rows.filter (fun x => key x = key a)).getLast? = some a := by
  have hsplit : rows = rows.take i ++ a :: rows.drop (i + 1) := by
    obtain ⟨hlt, hget⟩ := List.getElem?_eq_some_iff.mp hi
    rw [← hget, List.getElem_cons_drop, List.take_append_drop]
  have htail : (rows.drop (i + 1)).filter (fun x => key x = key a) = [] := by
    rw [List.filter_eq_nil_iff]
    intro b hb hk
    obtain ⟨j, hj⟩ := List.mem_iff_getElem?.mp hb
    rw [List.getElem?_drop] at hj
    have := hlast (i + 1 + j) b hj (by simpa using hk)
    omega
  rw [hsplit, List.filter_append, List.filter_cons_of_pos (by simp), htail]
  simp

/-- The order that ranks the last of `n` positions first. -/
def lastFirst (n : ℕ) : RowOrder where
  rank i := if i < n then n - 1 - i else i
  injective := by
    intro i j h
    simp only at h
    split at h <;> split at h <;> omega

/-- **`lastFirst` keeps the last row of every key.** -/
theorem keepsLast_lastFirst (rows : List α) : KeepsLast key (lastFirst rows.length) rows := by
  intro k
  by_cases hk : ∀ a ∈ rows, key a ≠ k
  · have hnil : rows.filter (fun x => key x = k) = [] := by
      rw [List.filter_eq_nil_iff]
      intro a ha
      simpa using hk a ha
    rw [find?_qualifyFirst_eq_none key _ hk, hnil, List.getLast?_nil]
  · push Not at hk
    obtain ⟨a₀, ha₀, rfl⟩ := hk
    obtain ⟨a, ha, hak⟩ := exists_mem_qualifyFirst key (lastFirst rows.length) ha₀
    obtain ⟨i, hi, hleast⟩ := (mem_qualifyFirst_iff key _ rows a).mp ha
    obtain ⟨hilt, -⟩ := List.getElem?_eq_some_iff.mp hi
    have hlast : ∀ j b, rows[j]? = some b → key b = key a → j ≤ i := by
      intro j b hj hb
      obtain ⟨hjlt, -⟩ := List.getElem?_eq_some_iff.mp hj
      have hrank := hleast j b hj hb
      simp only [lastFirst, if_pos hilt, if_pos hjlt] at hrank
      omega
    rw [← hak, find?_qualifyFirst key _ hi hleast, getLast?_filter_of_last key hi hlast]

/-- With distinct keys every row is the last of its key. -/
theorem keepsLast_of_nodup {rows : List α} (hn : (rows.map key).Nodup) : KeepsLast key o rows := by
  intro k
  rw [qualifyFirst_of_nodup key o hn]
  induction rows with
  | nil => rfl
  | cons a rows ih =>
    rw [List.map_cons, List.nodup_cons] at hn
    by_cases hk : key a = k
    · have hrest : rows.filter (fun x => key x = k) = [] := by
        rw [List.filter_eq_nil_iff]
        intro b hb hkb
        apply hn.1
        rw [hk, ← of_decide_eq_true hkb]
        exact List.mem_map_of_mem hb
      rw [List.find?_cons_of_pos (by simpa using hk), List.filter_cons_of_pos (by simpa using hk),
        hrest, List.getLast?_singleton]
    · rw [List.find?_cons_of_neg (by simpa using hk), List.filter_cons_of_neg (by simpa using hk)]
      exact ih hn.2

/-- The order that ranks position `i` first and otherwise follows the source. -/
def pickFirst (i : ℕ) : RowOrder where
  rank := Equiv.swap 0 i
  injective := (Equiv.swap 0 i).injective

/-- Any position of a key can be made its survivor. -/
theorem find?_qualifyFirst_pickFirst {rows : List α} {a : α} {i : ℕ} (hi : rows[i]? = some a) :
    (qualifyFirst key (pickFirst i) rows).find? (fun x => key x = key a) = some a := by
  apply find?_qualifyFirst key _ hi
  intro j b _ _
  show Equiv.swap 0 i i ≤ Equiv.swap 0 i j
  rw [Equiv.swap_apply_right]
  exact Nat.zero_le _

/-- **When the last row always survives.**  If the `ORDER BY` never tells rows of one key apart, every
permitted order keeps the last row of every key exactly when rows of one key are equal. -/
theorem forall_keepsLast_iff {before : α → α → Prop} {rows : List α}
    (hties : ∀ a ∈ rows, ∀ b ∈ rows, key a = key b → ¬ before a b) :
    (∀ o : RowOrder, o.Respects key before rows → KeepsLast key o rows) ↔
      ∀ a ∈ rows, ∀ b ∈ rows, key a = key b → a = b := by
  constructor
  · intro hall
    have hlast : ∀ a ∈ rows, (rows.filter (fun x => key x = key a)).getLast? = some a := by
      intro a ha
      obtain ⟨i, hi⟩ := List.mem_iff_getElem?.mp ha
      have hrespects : (pickFirst i).Respects key before rows := by
        intro m n b c hm hn hk hbefore
        exact absurd hbefore (hties b (List.mem_of_getElem? hm) c (List.mem_of_getElem? hn) hk)
      rw [← hall _ hrespects (key a)]
      exact find?_qualifyFirst_pickFirst key hi
    intro a ha b hb hk
    have hb' := hlast b hb
    rw [← hk, hlast a ha] at hb'
    exact Option.some.inj hb'
  · intro hequal o _ k
    cases hlast : (rows.filter (fun x => key x = k)).getLast? with
    | none =>
      apply find?_qualifyFirst_eq_none
      intro a ha hk
      have hmem : a ∈ rows.filter fun x => key x = k := by simpa using ⟨ha, hk⟩
      rw [List.getLast?_eq_none_iff.mp hlast] at hmem
      exact absurd hmem List.not_mem_nil
    | some a =>
      have ha := List.mem_of_getLast? hlast
      rw [List.mem_filter, decide_eq_true_eq] at ha
      obtain ⟨b, hb, hbk⟩ := exists_mem_qualifyFirst key o ha.1
      have hab : b = a := hequal b (mem_of_mem_qualifyFirst key o hb) a ha.1 hbk
      have hfind := find?_key_of_mem key (nodup_keys_qualifyFirst key o rows) hb
      rwa [hbk, ha.2, hab] at hfind

end PgSnowflakeCdc.RowNumbering
