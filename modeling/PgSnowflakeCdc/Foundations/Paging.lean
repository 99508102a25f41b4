import Mathlib.Data.List.Sort
import Mathlib.Data.List.Nodup
import Mathlib.Tactic.Common

/-!
# Keyset pagination

Rows are read in pages: the rows whose key is beyond the last one read, sorted by key, cut off after a
fixed number.  Rows of equal key come in any order, which may differ from page to page.

* `Read` — the rows read so far, page by page;
* `Read.nodup`, `Read.sorted` — nothing is read twice, and keys never go down;
* `Read.complete` — **with distinct keys nothing is skipped**;
* `Read.perm_iff` — **with repeated keys, everything is read exactly when no full page ends between two
  rows of equal key.**
-/

namespace PgSnowflakeCdc.Paging

variable {α κ : Type*} [LinearOrder κ] (key : α → κ)

/-- A permitted `ORDER BY key`. -/
structure KeyOrder where
  sort : List α → List α
  perm : ∀ l, (sort l).Perm l
  sorted : ∀ l, (sort l).Pairwise fun a b => key a ≤ key b

/-- The order that leaves rows of equal key as they come. -/
def KeyOrder.stable : KeyOrder key where
  sort := List.insertionSort fun a b => key a ≤ key b
  perm := List.perm_insertionSort _
  sorted l := by
    have : Std.Total fun a b : α => key a ≤ key b := ⟨fun a b => le_total (key a) (key b)⟩
    have : IsTrans α fun a b => key a ≤ key b := ⟨fun _ _ _ => le_trans⟩
    exact List.pairwise_insertionSort _ l

variable {key}

/-- The rows not beyond `last`. -/
def upTo (key : α → κ) (rows : List α) (last : κ) : List α := rows.filter fun r => key r ≤ last

/-- The rows beyond `last`. -/
def beyond (key : α → κ) (rows : List α) (last : κ) : List α := rows.filter fun r => last < key r

/-- `WHERE key > last ORDER BY key LIMIT size`. -/
def KeyOrder.page (o : KeyOrder key) (rows : List α) (last : κ) (size : ℕ) : List α :=
  (o.sort (beyond key rows last)).take size

theorem mem_upTo {rows : List α} {last : κ} {r : α} :
    r ∈ upTo key rows last ↔ r ∈ rows ∧ key r ≤ last := by
  simp [upTo]

theorem mem_beyond {rows : List α} {last : κ} {r : α} :
    r ∈ beyond key rows last ↔ r ∈ rows ∧ last < key r := by
  simp [beyond]

theorem beyond_eq_nil_iff {rows : List α} {last : κ} :
    beyond key rows last = [] ↔ ∀ r ∈ rows, key r ≤ last := by
  simp [beyond]

theorem upTo_append_beyond_perm (rows : List α) (last : κ) :
    (upTo key rows last ++ beyond key rows last).Perm rows := by
  have hcompl : beyond key rows last = rows.filter fun r => !decide (key r ≤ last) := by
    apply List.filter_congr
    intro r _
    rw [← decide_not]
    exact decide_eq_decide.mpr not_le.symm
  rw [hcompl]
  exact List.filter_append_perm _ rows

/-! ### One page -/

section Page

variable (o : KeyOrder key) {rows : List α} {last : κ} {size : ℕ}

theorem mem_sort_beyond {r : α} :
    r ∈ o.sort (beyond key rows last) ↔ r ∈ rows ∧ last < key r :=
  (o.perm _).mem_iff.trans mem_beyond

theorem mem_of_mem_page {r : α} (h : r ∈ o.page rows last size) : r ∈ rows ∧ last < key r :=
  (mem_sort_beyond o).mp (List.mem_of_mem_take h)

theorem page_eq_nil_iff (hsize : 0 < size) :
    o.page rows last size = [] ↔ ∀ r ∈ rows, key r ≤ last := by
  have hnil : o.sort (beyond key rows last) = [] ↔ beyond key rows last = [] :=
    ⟨fun h => ((h ▸ o.perm _).symm).eq_nil, fun h => by
      have hperm := o.perm (beyond key rows last)
      rw [h] at hperm ⊢
      exact hperm.eq_nil⟩
  rw [KeyOrder.page, List.take_eq_nil_iff, or_iff_right (by omega), hnil, beyond_eq_nil_iff]

theorem sorted_page : (o.page rows last size).Pairwise fun a b => key a ≤ key b :=
  (o.sorted _).sublist (List.take_sublist _ _)

/-- With distinct keys they go up. -/
theorem strictSorted_page (hkeys : (rows.map key).Nodup) :
    (o.page rows last size).Pairwise fun a b => key a < key b := by
  have hdistinct : ((o.sort (beyond key rows last)).map key).Nodup := by
    rw [((o.perm _).map key).nodup_iff]
    exact hkeys.sublist (List.filter_sublist.map key)
  have hne : (o.page rows last size).Pairwise fun a b => key a ≠ key b :=
    (List.pairwise_map.mp hdistinct).sublist (List.take_sublist _ _)
  exact ((sorted_page o).and hne).imp fun h => lt_of_le_of_ne h.1 h.2

theorem nodup_page (hn : rows.Nodup) : (o.page rows last size).Nodup :=
  ((o.perm _).nodup_iff.mpr (hn.filter _)).sublist (List.take_sublist _ _)

variable (hne : o.page rows last size ≠ [])

/-- The last row of a page has the largest key. -/
theorem key_le_getLast {r : α} (h : r ∈ o.page rows last size) :
    key r ≤ key ((o.page rows last size).getLast hne) := by
  have hsorted : (o.page rows last size).Pairwise fun a b => key a ≤ key b := sorted_page o
  rw [← List.dropLast_append_getLast hne, List.pairwise_append] at hsorted
  rw [← List.dropLast_append_getLast hne, List.mem_append, List.mem_singleton] at h
  rcases h with h | h
  · exact hsorted.2.2 r h _ (List.mem_singleton_self _)
  · exact le_of_eq (congrArg key h)

theorem last_lt_getLast : last < key ((o.page rows last size).getLast hne) :=
  (mem_of_mem_page o (List.getLast_mem hne)).2

/-- What a page leaves out does not sort before its last row. -/
theorem getLast_le_of_dropped {r : α} (h : r ∈ (o.sort (beyond key rows last)).drop size) :
    key ((o.page rows last size).getLast hne) ≤ key r := by
  have hsorted := o.sorted (beyond key rows last)
  rw [← List.take_append_drop size (o.sort _), List.pairwise_append] at hsorted
  exact hsorted.2.2 _ (List.getLast_mem hne) r h

/-- **A page contains every row between its bounds.** -/
theorem mem_page_of_lt {r : α} (hr : r ∈ rows) (hlast : last < key r)
    (hlt : key r < key ((o.page rows last size).getLast hne)) : r ∈ o.page rows last size := by
  have hmem : r ∈ o.sort (beyond key rows last) := (mem_sort_beyond o).mpr ⟨hr, hlast⟩
  rw [← List.take_append_drop size (o.sort _), List.mem_append] at hmem
  rcases hmem with hmem | hmem
  · exact hmem
  · exact absurd (getLast_le_of_dropped o hne hmem) (not_le.mpr hlt)

/-- With distinct keys, its last row included. -/
theorem mem_page_of_le (hkeys : (rows.map key).Nodup) {r : α} (hr : r ∈ rows) (hlast : last < key r)
    (hle : key r ≤ key ((o.page rows last size).getLast hne)) : r ∈ o.page rows last size := by
  rcases hle.lt_or_eq with hlt | heq
  · exact mem_page_of_lt o hne hr hlast hlt
  · have hlastMem := List.getLast_mem hne
    have hsame : r = (o.page rows last size).getLast hne :=
      List.inj_on_of_nodup_map hkeys hr (mem_of_mem_page o hlastMem).1 heq
    rw [hsame]
    exact hlastMem

/-- A page moves the rest of the rows behind it. -/
theorem length_beyond_add_page :
    (beyond key rows (key ((o.page rows last size).getLast hne))).length +
      (o.page rows last size).length ≤ (beyond key rows last).length := by
  have hsplit : (o.page rows last size ++ (o.sort (beyond key rows last)).drop size).Perm
      (beyond key rows last) := by
    rw [KeyOrder.page, List.take_append_drop]
    exact o.perm _
  have hbeyond : beyond key rows (key ((o.page rows last size).getLast hne)) =
      beyond key (beyond key rows last) (key ((o.page rows last size).getLast hne)) := by
    rw [beyond, beyond, beyond, List.filter_filter]
    apply List.filter_congr
    intro r _
    by_cases h : key ((o.page rows last size).getLast hne) < key r
    · rw [decide_eq_true h, decide_eq_true ((last_lt_getLast o hne).trans h), Bool.and_true]
    · rw [decide_eq_false h, Bool.false_and]
  have hpage : beyond key (o.page rows last size) (key ((o.page rows last size).getLast hne)) = [] :=
    beyond_eq_nil_iff.mpr fun r hr => key_le_getLast o hne hr
  have hperm := hsplit.filter fun r => key ((o.page rows last size).getLast hne) < key r
  rw [List.filter_append] at hperm
  have hlen := hperm.length_eq
  have hdropped := List.length_filter_le
    (fun r => decide (key ((o.page rows last size).getLast hne) < key r))
    ((o.sort (beyond key rows last)).drop size)
  have htotal := hsplit.length_eq
  rw [beyond] at hpage
  rw [hpage, List.nil_append] at hlen
  rw [List.length_append] at htotal
  rw [hbeyond, beyond]
  omega

end Page

/-! ### Page after page -/

/-- `Read size rows start last l`: pages of the rows beyond `start` have been read up to `last`, and `l`
are the rows read, in order.  Each page may be sorted by an order of its own. -/
inductive Read (key : α → κ) (size : ℕ) (rows : List α) (start : κ) : κ → List α → Prop
  | start : Read key size rows start start []
  | next {last : κ} {l : List α} (o : KeyOrder key) (h : Read key size rows start last l)
      (hne : o.page rows last size ≠ []) :
      Read key size rows start (key ((o.page rows last size).getLast hne))
        (l ++ o.page rows last size)

namespace Read

variable {size : ℕ} {rows : List α} {start last : κ} {l : List α}

theorem mem (h : Read key size rows start last l) :
    ∀ r ∈ l, r ∈ rows ∧ start < key r ∧ key r ≤ last := by
  have hstart : ∀ {last l}, Read key size rows start last l → start ≤ last := by
    intro last l h
    induction h with
    | start => exact le_refl start
    | next o h hne ih => exact ih.trans (last_lt_getLast o hne).le
  induction h with
  | start => exact fun r hr => absurd hr List.not_mem_nil
  | next o h hne ih =>
    intro r hr
    rcases List.mem_append.mp hr with hr | hr
    · obtain ⟨hrow, hlo, hhi⟩ := ih r hr
      exact ⟨hrow, hlo, hhi.trans (last_lt_getLast o hne).le⟩
    · obtain ⟨hrow, hlo⟩ := mem_of_mem_page o hr
      exact ⟨hrow, (hstart h).trans_lt hlo, key_le_getLast o hne hr⟩

/-- **Nothing is read twice.** -/
theorem nodup (hn : rows.Nodup) (h : Read key size rows start last l) : l.Nodup := by
  induction h with
  | start => exact List.nodup_nil
  | next o h hne ih =>
    refine List.nodup_append.mpr ⟨ih, nodup_page o hn, ?_⟩
    rintro r hr r' hr' rfl
    exact absurd (mem_of_mem_page o hr').2 (not_lt.mpr (h.mem r hr).2.2)

/-- **Keys never go down.** -/
theorem sorted (h : Read key size rows start last l) : l.Pairwise fun a b => key a ≤ key b := by
  induction h with
  | start => exact List.Pairwise.nil
  | next o h hne ih =>
    refine List.pairwise_append.mpr ⟨ih, sorted_page o, fun r hr r' hr' => ?_⟩
    exact (h.mem r hr).2.2.trans (mem_of_mem_page o hr').2.le

/-- **With distinct keys nothing is skipped.** -/
theorem complete (hkeys : (rows.map key).Nodup) (h : Read key size rows start last l) :
    ∀ r ∈ rows, start < key r → key r ≤ last → r ∈ l := by
  induction h with
  | start => exact fun r _ hlo hhi => absurd (hlo.trans_le hhi) (lt_irrefl _)
  | @next last l o h hne ih =>
    intro r hr hlo hhi
    rw [List.mem_append]
    rcases le_or_gt (key r) last with hle | hgt
    · exact Or.inl (ih r hr hlo hle)
    · exact Or.inr (mem_page_of_le o hne hkeys hr hgt hhi)

/-- With distinct keys beyond the start, a read to the end is a permutation of the rows. -/
theorem perm_of_nodup_keys (hkeys : (rows.map key).Nodup) (hstart : ∀ r ∈ rows, start < key r)
    (h : Read key size rows start last l) (hend : ∀ r ∈ rows, key r ≤ last) : l.Perm rows :=
  (List.perm_ext_iff_of_nodup (h.nodup (hkeys.of_map key)) (hkeys.of_map key)).mpr fun r =>
    ⟨fun hr => (h.mem r hr).1, fun hr => h.complete hkeys r hr (hstart r hr) (hend r hr)⟩

end Read

/-! ### Repeated keys -/

/-- The keys of the rows, in order. -/
def sortedKeys (key : α → κ) (rows : List α) : List κ := (rows.map key).insertionSort (· ≤ ·)

/-- No full page of `size` rows ends between two rows of equal key. -/
def CleanBoundaries (key : α → κ) (size : ℕ) (rows : List α) : Prop :=
  ∀ j, 0 < j → j * size < rows.length →
    (sortedKeys key rows)[j * size - 1]? ≠ (sortedKeys key rows)[j * size]?

section Boundaries

variable (o : KeyOrder key) {rows : List α} {last : κ} {size : ℕ}

/-- The keys up to `last`, then those beyond it. -/
theorem sortedKeys_split (rows : List α) (last : κ) :
    sortedKeys key rows =
      (o.sort (upTo key rows last)).map key ++ (o.sort (beyond key rows last)).map key := by
  apply List.Perm.eq_of_sortedLE
  · exact List.sortedLE_insertionSort
  · apply List.Pairwise.sortedLE
    rw [List.pairwise_append, List.pairwise_map, List.pairwise_map]
    refine ⟨o.sorted _, o.sorted _, ?_⟩
    intro k hk k' hk'
    obtain ⟨r, hr, rfl⟩ := List.mem_map.mp hk
    obtain ⟨r', hr', rfl⟩ := List.mem_map.mp hk'
    have hle := (mem_upTo.mp ((o.perm _).mem_iff.mp hr)).2
    exact hle.trans ((mem_sort_beyond o).mp hr').2.le
  · refine (List.perm_insertionSort _ _).trans ?_
    rw [← List.map_append]
    exact ((((o.perm _).append (o.perm _)).trans (upTo_append_beyond_perm rows last)).map key).symm

/-- The keys beyond `last`, by position. -/
theorem sortedKeys_getElem? (i : ℕ) :
    (sortedKeys key rows)[(upTo key rows last).length + i]? =
      ((o.sort (beyond key rows last)).map key)[i]? := by
  have hlen : ((o.sort (upTo key rows last)).map key).length = (upTo key rows last).length := by
    rw [List.length_map, (o.perm _).length_eq]
  rw [sortedKeys_split o rows last, ← hlen, List.getElem?_append_right (by omega)]
  congr 1
  omega

/-- The two keys at the boundary behind a full page that is not the end. -/
theorem boundary_keys (hne : o.page rows last size ≠ []) {r : α} {rest : List α}
    (hdrop : (o.sort (beyond key rows last)).drop size = r :: rest) :
    (sortedKeys key rows)[(upTo key rows last).length + size - 1]? =
        some (key ((o.page rows last size).getLast hne)) ∧
      (sortedKeys key rows)[(upTo key rows last).length + size]? = some (key r) ∧
      (o.page rows last size).length = size := by
  have hlt : size < (o.sort (beyond key rows last)).length := by
    have hlen := congrArg List.length hdrop
    rw [List.length_drop, List.length_cons] at hlen
    omega
  have hfull : (o.page rows last size).length = size := by
    rw [KeyOrder.page, List.length_take]
    omega
  have hpos : 0 < size := by
    rw [← hfull]
    exact List.length_pos_iff.mpr hne
  refine ⟨?_, ?_, hfull⟩
  · rw [Nat.add_sub_assoc hpos, sortedKeys_getElem? o, List.getElem?_map]
    have hget : (o.sort (beyond key rows last))[size - 1]? =
        some ((o.page rows last size).getLast hne) := by
      rw [List.getLast_eq_getElem, ← List.getElem?_eq_getElem, hfull, KeyOrder.page,
        List.getElem?_take_of_lt (by omega)]
    rw [hget, Option.map_some]
  · have hget : (o.sort (beyond key rows last))[size]? = some r := by
      have hhead : ((o.sort (beyond key rows last)).drop size)[0]? = some r := by
        rw [hdrop]
        rfl
      rwa [List.getElem?_drop, Nat.add_zero] at hhead
    rw [sortedKeys_getElem? o, List.getElem?_map, hget, Option.map_some]

end Boundaries

/-- So far everything up to `last` has been read, in `k` pages with clean boundaries, all of them full
unless nothing is left. -/
structure ReadClean (key : α → κ) (size : ℕ) (rows : List α) (last : κ) (l : List α) (k : ℕ) : Prop where
  perm : l.Perm (upTo key rows last)
  bound : l.length ≤ k * size
  full : l.length < k * size → ∀ r ∈ rows, key r ≤ last
  clean : ∀ j, 0 < j → j ≤ k → j * size < rows.length →
    (sortedKeys key rows)[j * size - 1]? ≠ (sortedKeys key rows)[j * size]?

/-- A row up to `last` has been skipped, at a boundary between equal keys. -/
def Skipped (key : α → κ) (size : ℕ) (rows : List α) (last : κ) (l : List α) : Prop :=
  (∃ r ∈ rows, r ∉ l ∧ key r ≤ last) ∧ ¬ CleanBoundaries key size rows

section Step

variable (o : KeyOrder key) {rows l : List α} {last : κ} {size k : ℕ}
  (hne : o.page rows last size ≠ [])

include hne

/-- What has been skipped stays so. -/
theorem Skipped.next (h : Skipped key size rows last l) :
    Skipped key size rows (key ((o.page rows last size).getLast hne)) (l ++ o.page rows last size) := by
  obtain ⟨⟨r, hr, hrl, hlast⟩, hbad⟩ := h
  refine ⟨⟨r, hr, ?_, hlast.trans (last_lt_getLast o hne).le⟩, hbad⟩
  rw [List.mem_append, not_or]
  exact ⟨hrl, fun hpage => absurd (mem_of_mem_page o hpage).2 (not_lt.mpr hlast)⟩

/-- A page that is the rest of the rows. -/
theorem ReadClean.next_rest (h : ReadClean key size rows last l k)
    (hdrop : (o.sort (beyond key rows last)).drop size = []) :
    ReadClean key size rows (key ((o.page rows last size).getLast hne)) (l ++ o.page rows last size)
      (k + 1) := by
  have hpage : o.page rows last size = o.sort (beyond key rows last) := by
    have hsplit := List.take_append_drop size (o.sort (beyond key rows last))
    rw [hdrop, List.append_nil] at hsplit
    exact hsplit
  have hall : ∀ r ∈ rows, key r ≤ key ((o.page rows last size).getLast hne) := by
    intro r hr
    rcases le_or_gt (key r) last with hle | hgt
    · exact hle.trans (last_lt_getLast o hne).le
    · apply key_le_getLast o hne
      rw [hpage]
      exact (mem_sort_beyond o).mpr ⟨hr, hgt⟩
  have hupTo : upTo key rows (key ((o.page rows last size).getLast hne)) = rows :=
    List.filter_eq_self.mpr fun r hr => decide_eq_true (hall r hr)
  have hperm : (l ++ o.page rows last size).Perm rows := by
    rw [hpage]
    exact (h.perm.append (o.perm _)).trans (upTo_append_beyond_perm rows last)
  have hlen : (o.page rows last size).length ≤ size := List.length_take_le _ _
  have hbound : (l ++ o.page rows last size).length ≤ (k + 1) * size := by
    have hk := h.bound
    rw [List.length_append, Nat.add_mul, Nat.one_mul]
    omega
  refine ⟨by rw [hupTo]; exact hperm, hbound, fun _ => hall, fun j hj hjk hjn => ?_⟩
  rcases Nat.lt_or_ge k j with hlt | hge
  · have hj' : j = k + 1 := by omega
    rw [← hperm.length_eq, hj'] at hjn
    omega
  · exact h.clean j hj hge hjn

/-- A page whose last key is smaller than the next one holds exactly the rows between its bounds. -/
theorem mem_page_iff {r : α} {rest : List α}
    (hdrop : (o.sort (beyond key rows last)).drop size = r :: rest)
    (hlt : key ((o.page rows last size).getLast hne) < key r) {x : α} :
    x ∈ o.page rows last size ↔
      x ∈ rows ∧ last < key x ∧ key x ≤ key ((o.page rows last size).getLast hne) := by
  constructor
  · intro hx
    obtain ⟨hrow, hlast⟩ := mem_of_mem_page o hx
    exact ⟨hrow, hlast, key_le_getLast o hne hx⟩
  · rintro ⟨hx, hlast, hle⟩
    have hmem : x ∈ o.sort (beyond key rows last) := (mem_sort_beyond o).mpr ⟨hx, hlast⟩
    rw [← List.take_append_drop size (o.sort _), hdrop, List.mem_append] at hmem
    rcases hmem with hmem | hmem
    · exact hmem
    · -- what is dropped sorts at `r` or behind it
      have htail := (o.sorted (beyond key rows last)).sublist (List.drop_sublist size _)
      rw [hdrop, List.pairwise_cons] at htail
      have hrx : key r ≤ key x := by
        rcases List.mem_cons.mp hmem with rfl | hmem
        · exact le_refl _
        · exact htail.1 x hmem
      exact absurd (hlt.trans_le hrx) (not_lt.mpr hle)

/-- Such a page continues what has been read. -/
theorem perm_upTo_append_page (hn : rows.Nodup) (hl : l.Perm (upTo key rows last))
    (hpage : ∀ x, x ∈ o.page rows last size ↔
      x ∈ rows ∧ last < key x ∧ key x ≤ key ((o.page rows last size).getLast hne)) :
    (l ++ o.page rows last size).Perm
      (upTo key rows (key ((o.page rows last size).getLast hne))) := by
  have hread : ∀ x, x ∈ l ↔ x ∈ rows ∧ key x ≤ last := fun x => hl.mem_iff.trans mem_upTo
  have hnodup : (l ++ o.page rows last size).Nodup := by
    refine List.nodup_append.mpr ⟨hl.nodup_iff.mpr (hn.filter _), nodup_page o hn, ?_⟩
    rintro x hx x' hx' rfl
    exact absurd (mem_of_mem_page o hx').2 (not_lt.mpr ((hread x).mp hx).2)
  refine (List.perm_ext_iff_of_nodup hnodup (hn.filter _)).mpr fun x => ?_
  rw [List.mem_append, hread, hpage, ← upTo, mem_upTo]
  constructor
  · rintro (⟨hx, hxlast⟩ | ⟨hx, -, hxle⟩)
    · exact ⟨hx, hxlast.trans (last_lt_getLast o hne).le⟩
    · exact ⟨hx, hxle⟩
  · rintro ⟨hx, hxle⟩
    rcases le_or_gt (key x) last with hxlast | hxlast
    · exact Or.inl ⟨hx, hxlast⟩
    · exact Or.inr ⟨hx, hxlast, hxle⟩

/-- A full page in front of more rows. -/
theorem ReadClean.next_full (hn : rows.Nodup) (h : ReadClean key size rows last l k) {r : α}
    {rest : List α} (hdrop : (o.sort (beyond key rows last)).drop size = r :: rest) :
    ReadClean key size rows (key ((o.page rows last size).getLast hne)) (l ++ o.page rows last size)
        (k + 1) ∨
      Skipped key size rows (key ((o.page rows last size).getLast hne))
        (l ++ o.page rows last size) := by
  obtain ⟨hkey, hkey', hfull⟩ := boundary_keys o hne hdrop
  have hrdrop : r ∈ (o.sort (beyond key rows last)).drop size := hdrop ▸ List.mem_cons_self
  obtain ⟨hr, hrlast⟩ := (mem_sort_beyond o).mp (List.mem_of_mem_drop hrdrop)
  have hl : l.length = k * size := by
    have hbound := h.bound
    by_contra hlt
    exact absurd (h.full (by omega) r hr) (not_le.mpr hrlast)
  have hpos : (k + 1) * size = (upTo key rows last).length + size := by
    rw [← h.perm.length_eq, hl, Nat.add_mul, Nat.one_mul]
  rw [← hpos] at hkey hkey'
  have hjn : (k + 1) * size < rows.length := by
    have hlt := (List.getElem?_eq_some_iff.mp hkey').1
    rwa [sortedKeys, List.length_insertionSort, List.length_map] at hlt
  have hsorted : (o.sort (beyond key rows last)).Nodup := (o.perm _).nodup_iff.mpr (hn.filter _)
  rw [← List.take_append_drop size (o.sort _)] at hsorted
  have hrpage : r ∉ o.page rows last size := fun hmem =>
    (List.nodup_append.mp hsorted).2.2 r hmem r hrdrop rfl
  rcases (getLast_le_of_dropped o hne hrdrop).lt_or_eq with hlt | heq
  · left
    refine ⟨?_, ?_, ?_, ?_⟩
    · exact perm_upTo_append_page o hne hn h.perm fun x => mem_page_iff o hne hdrop hlt
    · rw [List.length_append, hl, hfull, Nat.add_mul, Nat.one_mul]
    · intro hshort
      rw [List.length_append, hl, hfull, Nat.add_mul, Nat.one_mul] at hshort
      omega
    · intro j hj hjk hjn'
      rcases Nat.lt_or_ge k j with hkj | hge
      · have hj' : j = k + 1 := by omega
        rw [hj', hkey, hkey', Ne, Option.some.injEq]
        exact hlt.ne
      · exact h.clean j hj hge hjn'
  · right
    refine ⟨⟨r, hr, ?_, heq.symm.le⟩, ?_⟩
    · rw [List.mem_append, not_or]
      refine ⟨fun hmem => ?_, hrpage⟩
      exact absurd hrlast (not_lt.mpr (mem_upTo.mp (h.perm.mem_iff.mp hmem)).2)
    · intro hclean
      apply hclean (k + 1) (Nat.succ_pos k) hjn
      rw [hkey, hkey', heq]

end Step

namespace Read

variable {size : ℕ} {rows : List α} {start last : κ} {l : List α}

theorem clean_or_skipped (hn : rows.Nodup) (hstart : ∀ r ∈ rows, start < key r)
    (h : Read key size rows start last l) :
    (∃ k, ReadClean key size rows last l k) ∨ Skipped key size rows last l := by
  induction h with
  | start =>
    left
    have hnil : upTo key rows start = [] :=
      List.filter_eq_nil_iff.mpr fun r hr => by simpa using hstart r hr
    exact ⟨0, by rw [hnil], by simp, by simp, fun j hj hjk => absurd hjk (by omega)⟩
  | @next last l o h hne ih =>
    rcases ih with ⟨k, hclean⟩ | hskipped
    · cases hdrop : (o.sort (beyond key rows last)).drop size with
      | nil => exact Or.inl ⟨k + 1, hclean.next_rest o hne hdrop⟩
      | cons r rest =>
        rcases hclean.next_full o hne hn hdrop with hnext | hnext
        · exact Or.inl ⟨k + 1, hnext⟩
        · exact Or.inr hnext
    · exact Or.inr (hskipped.next o hne)

/-- **Everything is read exactly when no full page ends between two rows of equal key.** -/
theorem perm_iff (hn : rows.Nodup) (hstart : ∀ r ∈ rows, start < key r)
    (h : Read key size rows start last l) (hend : ∀ r ∈ rows, key r ≤ last) :
    l.Perm rows ↔ CleanBoundaries key size rows := by
  rcases h.clean_or_skipped hn hstart with ⟨k, hclean⟩ | ⟨⟨r, hr, hrl, -⟩, hbad⟩
  · have hupTo : upTo key rows last = rows :=
      List.filter_eq_self.mpr fun r hr => decide_eq_true (hend r hr)
    have hperm : l.Perm rows := hupTo ▸ hclean.perm
    refine iff_of_true hperm fun j hj hjn => ?_
    refine hclean.clean j hj ?_ hjn
    -- a boundary inside the rows is the end of a page that was read
    by_contra hjk
    have hle : (k + 1) * size ≤ j * size := Nat.mul_le_mul_right size (by omega)
    have hbound := hclean.bound
    rw [hperm.length_eq] at hbound
    rw [Nat.add_mul, Nat.one_mul] at hle
    omega
  · exact iff_of_false (fun hperm => hrl (hperm.mem_iff.mpr hr)) hbad

end Read

end PgSnowflakeCdc.Paging
