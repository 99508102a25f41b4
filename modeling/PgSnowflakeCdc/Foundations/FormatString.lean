import Mathlib.Algebra.Ring.Nat
import Mathlib.Data.List.Basic
import Mathlib.Tactic.Common

/-!
# Joined texts and format strings

`sep.join(…)` and `fmt % args`, as Python has them: in a format string `%s` is a hole, which takes the
next argument, and `%%` is a percent sign.

* `length_join_perm` — the length of a joined text does not depend on the order of its items;
* `format_append`, `format_join` — **the arguments of a text put together from parts are those of its
  parts, in order**;
* `holes_of_format` — a text that has been formatted has one hole for each argument;
* `getElem?_flatMap_rows` — the arguments of rows of equal width, by row and column.
-/

namespace PgSnowflakeCdc.FormatString

/-! ### Joined texts -/

theorem length_join_cons (sep : String) {s : String} {l : List String} (h : l ≠ []) :
    (sep.intercalate (s :: l)).length = s.length + sep.length + (sep.intercalate l).length := by
  rw [String.intercalate_cons_of_ne_nil h, String.length_append, String.length_append]

/-- The items and the separators between them. -/
theorem length_join (sep : String) (l : List String) :
    (sep.intercalate l).length =
      (l.map String.length).sum + (l.length - 1) * sep.length := by
  induction l with
  | nil => simp
  | cons s l ih =>
      by_cases h : l = []
      · subst h
        simp
      · have hpos : 0 < l.length := List.length_pos_iff.mpr h
        obtain ⟨n, hn⟩ : ∃ n, l.length = n + 1 := ⟨l.length - 1, by omega⟩
        rw [length_join_cons sep h, ih, List.map_cons, List.sum_cons, List.length_cons, hn,
          Nat.add_sub_cancel, Nat.add_sub_cancel, Nat.succ_mul]
        omega

/-- A joined text has the length of the text joined in another order. -/
theorem length_join_perm (sep : String) {l l' : List String} (h : l.Perm l') :
    (sep.intercalate l).length = (sep.intercalate l').length := by
  rw [length_join, length_join, h.length_eq, (h.map String.length).sum_nat]

/-! ### Format strings -/

/-- A piece of a format string. -/
inductive Piece where
  | char (c : Char) : Piece
  | hole : Piece
deriving DecidableEq

/-- The pieces of a format string; a `%` before anything but `s` and `%` is not read. -/
def pieces : List Char → Option (List Piece)
  | [] => some []
  | '%' :: 's' :: cs => (pieces cs).map (Piece.hole :: ·)
  | '%' :: '%' :: cs => (pieces cs).map (Piece.char '%' :: ·)
  | '%' :: _ => none
  | c :: cs => (pieces cs).map (Piece.char c :: ·)

/-- Every hole takes the next argument; one argument too few or too many is an error. -/
def fill : List Piece → List String → Option String
  | [], [] => some ""
  | [], _ :: _ => none
  | .char c :: ps, args => (fill ps args).map (String.singleton c ++ ·)
  | .hole :: _, [] => none
  | .hole :: ps, arg :: args => (fill ps args).map (arg ++ ·)

/-- `fmt % args`. -/
def format (fmt : String) (args : List String) : Option String :=
  (pieces fmt.toList).bind fun ps => fill ps args

/-- The number of holes of a format string. -/
def holes (fmt : String) : Option ℕ := (pieces fmt.toList).map (·.count Piece.hole)

/-- A text without `%`. -/
def Plain (s : String) : Prop := '%' ∉ s.toList

instance : DecidablePred Plain := fun s => inferInstanceAs (Decidable ('%' ∉ s.toList))

theorem plain_append {s t : String} : Plain (s ++ t) ↔ Plain s ∧ Plain t := by
  rw [Plain, Plain, Plain, String.toList_append, List.mem_append, not_or]

theorem plain_join {sep : String} (hsep : Plain sep) {l : List String} (h : ∀ s ∈ l, Plain s) :
    Plain (sep.intercalate l) := by
  induction l with
  | nil => exact List.not_mem_nil
  | cons s l ih =>
      have hs : Plain s := h s List.mem_cons_self
      have hl : ∀ t ∈ l, Plain t := fun t ht => h t (List.mem_cons_of_mem s ht)
      by_cases hnil : l = []
      · rw [hnil, String.intercalate_singleton]
        exact hs
      · rw [String.intercalate_cons_of_ne_nil hnil, plain_append, plain_append]
        exact ⟨⟨hs, hsep⟩, ih hl⟩

/-! ### Parts of a format string -/

theorem pieces_cons {c : Char} (h : c ≠ '%') (cs : List Char) :
    pieces (c :: cs) = (pieces cs).map (Piece.char c :: ·) := by
  rw [pieces]
  · exact fun _ hc _ => h hc
  · exact fun _ hc _ => h hc
  · exact h

theorem pieces_of_notMem {cs : List Char} (h : '%' ∉ cs) : pieces cs = some (cs.map Piece.char) := by
  induction cs with
  | nil => rfl
  | cons c cs ih =>
      have hc : c ≠ '%' := fun hc => h (hc ▸ List.mem_cons_self)
      have hcs : '%' ∉ cs := fun hmem => h (List.mem_cons_of_mem c hmem)
      rw [pieces_cons hc, ih hcs, Option.map_some, List.map_cons]

/-- The pieces of a text put together. -/
theorem pieces_append {f g : List Char} {ps qs : List Piece} (hf : pieces f = some ps)
    (hg : pieces g = some qs) : pieces (f ++ g) = some (ps ++ qs) := by
  fun_induction pieces f generalizing ps with
  | case1 =>
      cases hf
      exact hg
  | case2 cs ih =>
      obtain ⟨rest, hrest, rfl⟩ := Option.map_eq_some_iff.mp hf
      simp only [List.cons_append, pieces, ih hrest, Option.map_some]
  | case3 cs ih =>
      obtain ⟨rest, hrest, rfl⟩ := Option.map_eq_some_iff.mp hf
      simp only [List.cons_append, pieces, ih hrest, Option.map_some]
  | case4 => cases hf
  | case5 c cs _ _ hc ih =>
      obtain ⟨rest, hrest, rfl⟩ := Option.map_eq_some_iff.mp hf
      rw [List.cons_append, pieces_cons hc, ih hrest, Option.map_some, List.cons_append]

/-- The texts of two parts, each filled with its own arguments. -/
theorem fill_append {ps qs : List Piece} {args args' : List String} {x y : String}
    (hx : fill ps args = some x) (hy : fill qs args' = some y) :
    fill (ps ++ qs) (args ++ args') = some (x ++ y) := by
  fun_induction fill ps args generalizing x with
  | case1 =>
      cases hx
      rw [List.nil_append, List.nil_append, String.empty_append]
      exact hy
  | case2 => cases hx
  | case3 c ps args ih =>
      obtain ⟨rest, hrest, rfl⟩ := Option.map_eq_some_iff.mp hx
      rw [List.cons_append, fill, ih hrest, Option.map_some, String.append_assoc]
  | case4 => cases hx
  | case5 ps arg args ih =>
      obtain ⟨rest, hrest, rfl⟩ := Option.map_eq_some_iff.mp hx
      rw [List.cons_append, List.cons_append, fill, ih hrest, Option.map_some, String.append_assoc]

/-- A plain text stands as it is. -/
theorem fill_chars (cs : List Char) : fill (cs.map Piece.char) [] = some (String.ofList cs) := by
  induction cs with
  | nil => rfl
  | cons c cs ih => rw [List.map_cons, fill, ih, Option.map_some, String.ofList_cons]

/-- **Two parts**: the arguments of the first come first. -/
theorem format_append {f g x y : String} {args args' : List String} (hx : format f args = some x)
    (hy : format g args' = some y) : format (f ++ g) (args ++ args') = some (x ++ y) := by
  obtain ⟨ps, hps, hfill⟩ := Option.bind_eq_some_iff.mp hx
  obtain ⟨qs, hqs, hfill'⟩ := Option.bind_eq_some_iff.mp hy
  rw [format, String.toList_append, pieces_append hps hqs, Option.bind_some]
  exact fill_append hfill hfill'

theorem format_of_plain {s : String} (h : Plain s) : format s [] = some s := by
  rw [format, pieces_of_notMem h, Option.bind_some, fill_chars, String.ofList_toList]

/-- A plain text before a format string. -/
theorem format_plain_append {s f x : String} {args : List String} (hs : Plain s)
    (hx : format f args = some x) : format (s ++ f) args = some (s ++ x) :=
  format_append (format_of_plain hs) hx

/-- A plain text behind a format string. -/
theorem format_append_plain {s f x : String} {args : List String} (hx : format f args = some x)
    (hs : Plain s) : format (f ++ s) args = some (x ++ s) := by
  have hboth := format_append hx (format_of_plain hs)
  rwa [List.append_nil] at hboth

/-- The hole alone. -/
theorem format_hole (arg : String) : format "%s" [arg] = some arg := by
  show some (arg ++ "") = some arg
  rw [String.append_empty]

/-- **Joined parts**: every part takes its own arguments. -/
theorem format_join {ι : Type*} {sep : String} (hsep : Plain sep) {l : List ι}
    {fmt : ι → String} {args : ι → List String} {out : ι → String}
    (h : ∀ i ∈ l, format (fmt i) (args i) = some (out i)) :
    format (sep.intercalate (l.map fmt)) (l.flatMap args) =
      some (sep.intercalate (l.map out)) := by
  induction l with
  | nil => rfl
  | cons i l ih =>
      have hi := h i List.mem_cons_self
      have hl := ih fun j hj => h j (List.mem_cons_of_mem i hj)
      by_cases hnil : l = []
      · subst hnil
        simpa using hi
      · have hfmt : l.map fmt ≠ [] := fun h => hnil (List.map_eq_nil_iff.mp h)
        have hout : l.map out ≠ [] := fun h => hnil (List.map_eq_nil_iff.mp h)
        rw [List.map_cons, List.map_cons, List.flatMap_cons, String.intercalate_cons_of_ne_nil hfmt,
          String.intercalate_cons_of_ne_nil hout]
        exact format_append (format_append_plain hi hsep) hl

/-! ### Holes and arguments -/

theorem count_of_fill {ps : List Piece} {args : List String} {x : String}
    (h : fill ps args = some x) : ps.count Piece.hole = args.length := by
  fun_induction fill ps args generalizing x with
  | case1 => rfl
  | case2 => cases h
  | case3 c ps args ih =>
      obtain ⟨rest, hrest, -⟩ := Option.map_eq_some_iff.mp h
      rw [List.count_cons_of_ne (by simp), ih hrest]
  | case4 => cases h
  | case5 ps arg args ih =>
      obtain ⟨rest, hrest, -⟩ := Option.map_eq_some_iff.mp h
      rw [List.count_cons_self, ih hrest, List.length_cons]

/-- **A formatted text has one hole for each argument.** -/
theorem holes_of_format {fmt x : String} {args : List String} (h : format fmt args = some x) :
    holes fmt = some args.length := by
  obtain ⟨ps, hps, hfill⟩ := Option.bind_eq_some_iff.mp h
  rw [holes, hps, Option.map_some, count_of_fill hfill]

/-- **The arguments of rows of `n` columns**: the `k`-th stands in row `k / n`, column `k % n`. -/
theorem getElem?_flatMap_rows {α β : Type*} {n : ℕ} (hn : 0 < n) (f : α → List β) {l : List α}
    (hlen : ∀ a ∈ l, (f a).length = n) (k : ℕ) :
    (l.flatMap f)[k]? = l[k / n]?.bind fun a => (f a)[k % n]? := by
  induction l generalizing k with
  | nil => simp
  | cons a l ih =>
      have ha : (f a).length = n := hlen a List.mem_cons_self
      rw [List.flatMap_cons]
      rcases Nat.lt_or_ge k n with hlt | hge
      · rw [List.getElem?_append_left (by omega), Nat.div_eq_of_lt hlt, Nat.mod_eq_of_lt hlt]
        rfl
      · have hdiv : k / n = (k - n) / n + 1 := Nat.div_eq_sub_div hn hge
        rw [List.getElem?_append_right (by omega), ha, hdiv, List.getElem?_cons_succ,
          ih fun b hb => hlen b (List.mem_cons_of_mem a hb), ← Nat.mod_eq_sub_mod hge]

theorem length_flatMap_rows {α β : Type*} {n : ℕ} (f : α → List β) {l : List α}
    (hlen : ∀ a ∈ l, (f a).length = n) : (l.flatMap f).length = l.length * n := by
  rw [List.length_flatMap, List.map_congr_left hlen, List.map_const', List.sum_replicate_nat]

end PgSnowflakeCdc.FormatString
