import Mathlib.Data.List.Basic
import Mathlib.Data.List.Induction
import Mathlib.Data.List.Nodup
import Mathlib.Tactic.Common

/-!
# Insertion-ordered dictionaries

A dictionary as scripting languages have it: keys keep the order of their first insertion, a
second assignment to a key replaces its value in place, and no key occurs twice.  The absence of
duplicate keys is a field of the structure, so a malformed dictionary cannot be built.

* `Dict.set` / `Dict.get?` — assignment and lookup, with the two lookup laws;
* `Dict.ofPairs` — assigning a list of pairs in order; **exact** when the keys are distinct;
* `Dict.groupBy` — the `setdefault(key, []).append(x)` loop: each key holds the sublist of its own
  elements, in order (`get?_groupBy`).
-/

namespace PgSnowflakeCdc.OrderedDict

variable {K V α : Type*}

section Association

variable [DecidableEq K]

/-! ### Association lists with replacement in place -/

/-- Assign `k` in an association list: in place when `k` is present, at the end otherwise. -/
def assign (k : K) (v : V) : List (K × V) → List (K × V)
  | [] => [(k, v)]
  | (k', v') :: rest => if k' = k then (k, v) :: rest else (k', v') :: assign k v rest

/-- The value the list holds for `k`, if any. -/
def find (k : K) : List (K × V) → Option V
  | [] => none
  | (k', v') :: rest => if k' = k then some v' else find k rest

theorem find_assign_self (k : K) (v : V) (l : List (K × V)) : find k (assign k v l) = some v := by
  induction l with
  | nil => simp [assign, find]
  | cons p rest ih =>
    obtain ⟨k', v'⟩ := p
    by_cases h : k' = k
    · simp [assign, find, h]
    · simp [assign, find, h, ih]

theorem find_assign_ne {k k₀ : K} (h : k₀ ≠ k) (v : V) (l : List (K × V)) :
    find k₀ (assign k v l) = find k₀ l := by
  induction l with
  | nil => simp [assign, find, Ne.symm h]
  | cons p rest ih =>
    obtain ⟨k', v'⟩ := p
    by_cases hk : k' = k
    · subst hk
      simp [assign, find, Ne.symm h]
    · rw [assign, if_neg hk, find, find, ih]

/-- Assigning an absent key appends it. -/
theorem assign_of_notMem {k : K} (v : V) {l : List (K × V)} (h : k ∉ l.map Prod.fst) :
    assign k v l = l ++ [(k, v)] := by
  induction l with
  | nil => rfl
  | cons p rest ih =>
    obtain ⟨k', v'⟩ := p
    simp only [List.map_cons, List.mem_cons, not_or] at h
    rw [assign, if_neg (Ne.symm h.1), ih h.2, List.cons_append]

/-- Assigning a present key keeps the list of keys. -/
theorem keys_assign_of_mem {k : K} (v : V) {l : List (K × V)} (h : k ∈ l.map Prod.fst) :
    (assign k v l).map Prod.fst = l.map Prod.fst := by
  induction l with
  | nil => simp at h
  | cons p rest ih =>
    obtain ⟨k', v'⟩ := p
    by_cases hk : k' = k
    · simp [assign, hk]
    · have hmem : k ∈ rest.map Prod.fst := by
        simpa [Ne.symm hk] using h
      rw [assign, if_neg hk, List.map_cons, List.map_cons, ih hmem]

theorem nodup_keys_assign (k : K) (v : V) {l : List (K × V)} (h : (l.map Prod.fst).Nodup) :
    ((assign k v l).map Prod.fst).Nodup := by
  by_cases hk : k ∈ l.map Prod.fst
  · rw [keys_assign_of_mem v hk]
    exact h
  · rw [assign_of_notMem v hk, List.map_append, List.map_cons, List.map_nil]
    simpa only [List.concat_eq_append] using h.concat hk

theorem mem_keys_assign {k k₀ : K} {v : V} {l : List (K × V)} :
    k₀ ∈ (assign k v l).map Prod.fst ↔ k₀ = k ∨ k₀ ∈ l.map Prod.fst := by
  by_cases hk : k ∈ l.map Prod.fst
  · rw [keys_assign_of_mem v hk]
    constructor
    · exact Or.inr
    · rintro (rfl | h)
      · exact hk
      · exact h
  · rw [assign_of_notMem v hk, List.map_append, List.mem_append, List.map_cons, List.map_nil,
      List.mem_singleton, or_comm]

theorem find_eq_none_iff {k : K} {l : List (K × V)} : find k l = none ↔ k ∉ l.map Prod.fst := by
  induction l with
  | nil => simp [find]
  | cons p rest ih =>
    obtain ⟨k', v'⟩ := p
    by_cases hk : k' = k
    · simp [find, hk]
    · rw [find, if_neg hk, ih, List.map_cons, List.mem_cons, not_or]
      exact ⟨fun h => ⟨Ne.symm hk, h⟩, fun h => h.2⟩

theorem mem_of_find {k : K} {v : V} {l : List (K × V)} (h : find k l = some v) : (k, v) ∈ l := by
  induction l with
  | nil => simp [find] at h
  | cons p rest ih =>
    obtain ⟨k', v'⟩ := p
    by_cases hk : k' = k
    · rw [find, if_pos hk, Option.some.injEq] at h
      rw [hk, h]
      exact List.mem_cons_self
    · rw [find, if_neg hk] at h
      exact List.mem_cons_of_mem _ (ih h)

theorem find_of_mem {k : K} {v : V} {l : List (K × V)} (hn : (l.map Prod.fst).Nodup)
    (h : (k, v) ∈ l) : find k l = some v := by
  induction l with
  | nil => simp at h
  | cons p rest ih =>
    obtain ⟨k', v'⟩ := p
    rw [List.map_cons, List.nodup_cons] at hn
    rcases List.mem_cons.mp h with heq | hmem
    · cases heq
      simp [find]
    · have hne : k' ≠ k := by
        rintro rfl
        exact hn.1 (List.mem_map.mpr ⟨_, hmem, rfl⟩)
      rw [find, if_neg hne]
      exact ih hn.2 hmem

/-- Looking a key up among the pairs whose keys pass a test, with their values converted. -/
theorem find_filter_map {W : Type*} (q : K → Bool) (f : V → W) (k : K) (l : List (K × V)) :
    find k ((l.filter fun p => q p.1).map fun p => (p.1, f p.2)) =
      if q k then (find k l).map f else none := by
  induction l with
  | nil => simp [find]
  | cons p rest ih =>
      obtain ⟨k', v'⟩ := p
      by_cases hk : k' = k
      · subst hk
        by_cases hq : q k'
        · simp [find, hq]
        · simpa [find, hq] using ih
      · by_cases hq : q k'
        · simpa [find, hq, hk] using ih
        · simpa [find, hq, hk] using ih

/-- Looking a key up in keys zipped with their own values. -/
theorem find_zip_map {ks : List K} {k : K} (h : k ∈ ks) (f : K → V) :
    find k (ks.zip (ks.map f)) = some (f k) := by
  induction ks with
  | nil => simp at h
  | cons k' ks ih =>
    rw [List.map_cons, List.zip_cons_cons, find]
    by_cases hk : k' = k
    · rw [if_pos hk, hk]
    · have hmem : k ∈ ks := by simpa [Ne.symm hk] using h
      rw [if_neg hk, ih hmem]

end Association

/-! ### The dictionary type -/

/-- An insertion-ordered dictionary: a list of pairs in which no key occurs twice. -/
@[ext]
structure Dict (K V : Type*) where
  entries : List (K × V)
  nodup : (entries.map Prod.fst).Nodup

instance [DecidableEq K] [DecidableEq V] : DecidableEq (Dict K V) := fun d d' =>
  decidable_of_iff (d.entries = d'.entries) Dict.ext_iff.symm

namespace Dict

def empty : Dict K V := ⟨[], List.nodup_nil⟩

instance : EmptyCollection (Dict K V) := ⟨empty⟩

instance : Inhabited (Dict K V) := ⟨∅⟩

def keys (d : Dict K V) : List K := d.entries.map Prod.fst

@[simp] theorem entries_empty : (∅ : Dict K V).entries = [] := rfl

@[simp] theorem keys_empty : (∅ : Dict K V).keys = [] := rfl

variable [DecidableEq K]

def get? (d : Dict K V) (k : K) : Option V := find k d.entries

def set (d : Dict K V) (k : K) (v : V) : Dict K V :=
  ⟨assign k v d.entries, nodup_keys_assign k v d.nodup⟩

@[simp] theorem get?_empty (k : K) : (∅ : Dict K V).get? k = none := rfl

@[simp] theorem get?_set_self (d : Dict K V) (k : K) (v : V) : (d.set k v).get? k = some v :=
  find_assign_self k v d.entries

theorem get?_set_ne (d : Dict K V) {k k₀ : K} (h : k₀ ≠ k) (v : V) :
    (d.set k v).get? k₀ = d.get? k₀ :=
  find_assign_ne h v d.entries

theorem get?_set (d : Dict K V) (k k₀ : K) (v : V) :
    (d.set k v).get? k₀ = if k₀ = k then some v else d.get? k₀ := by
  by_cases h : k₀ = k
  · rw [if_pos h, h, get?_set_self]
  · rw [if_neg h, get?_set_ne d h]

theorem entries_set_of_notMem (d : Dict K V) {k : K} (v : V) (h : k ∉ d.keys) :
    (d.set k v).entries = d.entries ++ [(k, v)] :=
  assign_of_notMem v h

theorem mem_keys_set {d : Dict K V} {k k₀ : K} {v : V} :
    k₀ ∈ (d.set k v).keys ↔ k₀ = k ∨ k₀ ∈ d.keys :=
  mem_keys_assign

theorem get?_eq_none_iff {d : Dict K V} {k : K} : d.get? k = none ↔ k ∉ d.keys :=
  find_eq_none_iff

theorem get?_eq_some_iff {d : Dict K V} {k : K} {v : V} :
    d.get? k = some v ↔ (k, v) ∈ d.entries :=
  ⟨mem_of_find, find_of_mem d.nodup⟩

theorem mem_keys_of_get? {d : Dict K V} {k : K} {v : V} (h : d.get? k = some v) : k ∈ d.keys :=
  List.mem_map_of_mem (get?_eq_some_iff.mp h)

/-! ### Building a dictionary from pairs -/

/-- Assign the pairs of a list one after the other. -/
def ofPairs (l : List (K × V)) : Dict K V := l.foldl (fun d p => d.set p.1 p.2) ∅

/-- Assigning fresh, pairwise distinct keys appends the pairs as they are. -/
theorem entries_foldl_set (l : List (K × V)) (d : Dict K V)
    (h : (d.entries.map Prod.fst ++ l.map Prod.fst).Nodup) :
    (l.foldl (fun d p => d.set p.1 p.2) d).entries = d.entries ++ l := by
  induction l generalizing d with
  | nil => simp
  | cons p rest ih =>
    have hfresh : p.1 ∉ d.keys := by
      intro hmem
      rw [List.nodup_append] at h
      exact h.2.2 p.1 hmem p.1 (by simp) rfl
    have hset : (d.set p.1 p.2).entries = d.entries ++ [p] := entries_set_of_notMem d p.2 hfresh
    rw [List.foldl_cons, ih (d.set p.1 p.2) (by simpa [hset] using h), hset, List.append_assoc,
      List.singleton_append]

/-- **Distinct keys make `ofPairs` exact**: the dictionary is the list itself. -/
theorem entries_ofPairs (l : List (K × V)) (h : (l.map Prod.fst).Nodup) :
    (ofPairs l).entries = l := by
  rw [ofPairs, entries_foldl_set l ∅ (by simpa using h), entries_empty, List.nil_append]

theorem ofPairs_snoc (l : List (K × V)) (p : K × V) :
    ofPairs (l ++ [p]) = (ofPairs l).set p.1 p.2 := by
  rw [ofPairs, List.foldl_append]
  rfl

/-- The last pair of a key is the one that stays. -/
theorem get?_ofPairs (l : List (K × V)) (k : K) :
    (ofPairs l).get? k = ((l.filter fun p => p.1 = k).getLast?).map Prod.snd := by
  induction l using List.reverseRecOn with
  | nil => rfl
  | append_singleton l p ih =>
    rw [ofPairs_snoc, get?_set, ih, List.filter_append]
    by_cases h : p.1 = k
    · rw [if_pos h.symm, List.filter_cons_of_pos (by simpa using h), List.filter_nil,
        List.getLast?_concat, Option.map_some]
    · rw [if_neg (Ne.symm h), List.filter_cons_of_neg (by simpa using h), List.filter_nil,
        List.append_nil]

theorem keys_set (d : Dict K V) (k : K) (v : V) :
    (d.set k v).keys = if k ∈ d.keys then d.keys else d.keys ++ [k] := by
  by_cases h : k ∈ d.keys
  · rw [if_pos h]
    exact keys_assign_of_mem v h
  · rw [if_neg h, keys, entries_set_of_notMem d v h, List.map_append]
    rfl

/-- The keys of `ofPairs` depend on the keys of the pairs only. -/
theorem keys_ofPairs_congr {W : Type*} {l : List (K × V)} {l' : List (K × W)}
    (h : l.map Prod.fst = l'.map Prod.fst) : (ofPairs l).keys = (ofPairs l').keys := by
  induction l using List.reverseRecOn generalizing l' with
  | nil =>
    rw [List.map_eq_nil_iff.mp h.symm]
    rfl
  | append_singleton l p ih =>
    rcases List.eq_nil_or_concat l' with rfl | ⟨l', p', rfl⟩
    · simp at h
    · rw [List.concat_eq_append, List.map_append, List.map_append] at h
      obtain ⟨hinit, hlast⟩ := List.append_inj' h rfl
      have hp : p.1 = p'.1 := by simpa using hlast
      rw [List.concat_eq_append, ofPairs_snoc, ofPairs_snoc, keys_set, keys_set, ih hinit, hp]

theorem mem_keys_ofPairs {l : List (K × V)} {k : K} :
    k ∈ (ofPairs l).keys ↔ k ∈ l.map Prod.fst := by
  have hfold : ∀ (l : List (K × V)) (d : Dict K V),
      k ∈ (l.foldl (fun d p => d.set p.1 p.2) d).keys ↔ k ∈ d.keys ∨ k ∈ l.map Prod.fst := by
    intro l
    induction l with
    | nil => simp
    | cons p rest ih =>
      intro d
      rw [List.foldl_cons, ih, mem_keys_set, List.map_cons, List.mem_cons]
      tauto
  rw [ofPairs, hfold, keys_empty]
  simp

/-! ### Updating a dictionary -/

/-- `d.update(l)`: assign the pairs of a list on top of a dictionary. -/
def update (d : Dict K V) (l : List (K × V)) : Dict K V := l.foldl (fun d p => d.set p.1 p.2) d

/-- **The pairs win over the dictionary**, the last pair of a key over the earlier ones. -/
theorem get?_update (d : Dict K V) (l : List (K × V)) (k : K) :
    (d.update l).get? k = ((ofPairs l).get? k).or (d.get? k) := by
  induction l using List.reverseRecOn with
  | nil => rfl
  | append_singleton l p ih =>
      rw [ofPairs_snoc, update, List.foldl_append]
      show ((d.update l).set p.1 p.2).get? k = _
      rw [get?_set, get?_set, ih]
      split
      · rfl
      · rfl

/-- Pairs of one key each, over the dictionary. -/
theorem get?_update_of_nodup (d : Dict K V) {l : List (K × V)} (h : (l.map Prod.fst).Nodup) (k : K) :
    (d.update l).get? k = (find k l).or (d.get? k) := by
  rw [get?_update, get?, entries_ofPairs l h]

theorem mem_of_mem_set {d : Dict K V} {k : K} {v : V} {p : K × V} (h : p ∈ (d.set k v).entries) :
    p = (k, v) ∨ p ∈ d.entries := by
  obtain ⟨k₀, v₀⟩ := p
  have hget := get?_eq_some_iff.mpr h
  rw [get?_set] at hget
  split at hget
  · next hk =>
      rw [hk, Option.some.inj hget]
      exact Or.inl rfl
  · exact Or.inr (get?_eq_some_iff.mp hget)

theorem mem_of_mem_update {d : Dict K V} {l : List (K × V)} {p : K × V}
    (h : p ∈ (d.update l).entries) : p ∈ l ∨ p ∈ d.entries := by
  induction l using List.reverseRecOn with
  | nil => exact Or.inr h
  | append_singleton l q ih =>
      rw [update, List.foldl_append] at h
      rcases mem_of_mem_set h with hq | hmem
      · exact Or.inl (List.mem_append_right _ (List.mem_singleton.mpr hq))
      · exact (ih hmem).imp_left (List.mem_append_left _)

theorem mem_of_mem_ofPairs {l : List (K × V)} {p : K × V} (h : p ∈ (ofPairs l).entries) : p ∈ l :=
  (mem_of_mem_update (d := ∅) h).resolve_right (by simp)

/-! ### Grouping -/

/-- The loop `for x in l: d.setdefault(f(x), []).append(x)`, started from `d`. -/
def groupInto (f : α → K) (d : Dict K (List α)) (l : List α) : Dict K (List α) :=
  l.foldl (fun d x => d.set (f x) ((d.get? (f x)).getD [] ++ [x])) d

/-- Group a list by a key, the groups ordered by first occurrence. -/
def groupBy (f : α → K) (l : List α) : Dict K (List α) := groupInto f ∅ l

theorem getD_groupInto (f : α → K) (d : Dict K (List α)) (l : List α) (k : K) :
    ((groupInto f d l).get? k).getD [] = (d.get? k).getD [] ++ l.filter (fun x => f x = k) := by
  induction l generalizing d with
  | nil => simp [groupInto]
  | cons x rest ih =>
    show ((groupInto f (d.set (f x) _) rest).get? k).getD [] = _
    rw [ih, get?_set]
    by_cases h : k = f x
    · subst h
      simp
    · rw [if_neg h, List.filter_cons_of_neg (by simpa using Ne.symm h)]

/-- **Grouping keeps each key's own elements, in order.** -/
theorem getD_groupBy (f : α → K) (l : List α) (k : K) :
    ((groupBy f l).get? k).getD [] = l.filter (fun x => f x = k) := by
  rw [groupBy, getD_groupInto, get?_empty, Option.getD_none, List.nil_append]

theorem mem_keys_groupInto {f : α → K} {d : Dict K (List α)} {l : List α} {k : K} :
    k ∈ (groupInto f d l).keys ↔ k ∈ d.keys ∨ ∃ x ∈ l, f x = k := by
  induction l generalizing d with
  | nil => simp [groupInto]
  | cons x rest ih =>
    show k ∈ (groupInto f (d.set (f x) _) rest).keys ↔ _
    rw [ih, mem_keys_set]
    simp only [List.mem_cons, exists_eq_or_imp]
    constructor
    · rintro ((rfl | h) | h)
      · exact Or.inr (Or.inl rfl)
      · exact Or.inl h
      · exact Or.inr (Or.inr h)
    · rintro (h | rfl | h)
      · exact Or.inl (Or.inr h)
      · exact Or.inl (Or.inl rfl)
      · exact Or.inr h

theorem mem_keys_groupBy {f : α → K} {l : List α} {k : K} :
    k ∈ (groupBy f l).keys ↔ ∃ x ∈ l, f x = k := by
  rw [groupBy, mem_keys_groupInto, keys_empty]
  simp

/-- Elements of one key form one group. -/
theorem entries_groupBy_of_const {f : α → K} {l : List α} {k : K} (hne : l ≠ [])
    (h : ∀ x ∈ l, f x = k) : (groupBy f l).entries = [(k, l)] := by
  have hinto : ∀ (l acc : List α) (d : Dict K (List α)), d.entries = [(k, acc)] →
      (∀ x ∈ l, f x = k) → (groupInto f d l).entries = [(k, acc ++ l)] := by
    intro l
    induction l with
    | nil =>
      intro acc d hd _
      rw [List.append_nil]
      exact hd
    | cons x rest ih =>
      intro acc d hd hkey
      have hx : f x = k := hkey x List.mem_cons_self
      have hset : (d.set (f x) ((d.get? (f x)).getD [] ++ [x])).entries = [(k, acc ++ [x])] := by
        rw [hx]
        simp [set, get?, hd, assign, find]
      show (groupInto f (d.set (f x) _) rest).entries = _
      rw [ih (acc ++ [x]) _ hset fun y hy => hkey y (List.mem_cons_of_mem x hy), List.append_assoc,
        List.singleton_append]
  cases l with
  | nil => exact absurd rfl hne
  | cons x rest =>
    have hx : f x = k := h x List.mem_cons_self
    have hset : ((∅ : Dict K (List α)).set (f x) (((∅ : Dict K (List α)).get? (f x)).getD [] ++
        [x])).entries = [(k, [x])] := by
      rw [hx]
      rfl
    exact hinto rest [x] _ hset fun y hy => h y (List.mem_cons_of_mem x hy)

/-- A group of the grouping is exactly the sublist of its key. -/
theorem mem_entries_groupBy {f : α → K} {l : List α} {k : K} {g : List α}
    (h : (k, g) ∈ (groupBy f l).entries) : g = l.filter (fun x => f x = k) := by
  rw [← getD_groupBy, get?_eq_some_iff.mpr h, Option.getD_some]

end Dict

end PgSnowflakeCdc.OrderedDict
