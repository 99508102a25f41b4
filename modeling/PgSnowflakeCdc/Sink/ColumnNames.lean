import PgSnowflakeCdc.Sink.Schema

/-!
# Column names in each naming style

`_pg_col_to_sf` rewrites pairs of characters that do not overlap.  As no character is both a lower-case
and an upper-case letter, no boundary is missed.

* `underscored` — an underscore at every lower-to-upper boundary; `splitCamel_eq_underscored`;
* `StrictCamel`, `LowerSnake` — the two naming styles, with an inverse of the renaming for each;
* `pgColToSf_idem` — renaming an ASCII name again changes nothing;
* `rowToSf_of_style` — **a row in one style keeps its columns, their order and their values.**
-/

namespace PgSnowflakeCdc

open OrderedDict

/-! ### Characters -/

def IsLowerChar (c : Char) : Prop := 'a' ≤ c ∧ c ≤ 'z'

def IsUpperChar (c : Char) : Prop := 'A' ≤ c ∧ c ≤ 'Z'

def IsDigitChar (c : Char) : Prop := '0' ≤ c ∧ c ≤ '9'

instance : DecidablePred IsLowerChar := fun _ => inferInstanceAs (Decidable (_ ∧ _))

instance : DecidablePred IsUpperChar := fun _ => inferInstanceAs (Decidable (_ ∧ _))

instance : DecidablePred IsDigitChar := fun _ => inferInstanceAs (Decidable (_ ∧ _))

/-- What holds of the 128 ASCII characters, one by one. -/
theorem ascii_forall {p : Char → Prop} (h : ∀ n < 128, p (Char.ofNat n)) {c : Char}
    (hc : c.toNat < 128) : p c := by
  have hchar := h c.toNat hc
  rwa [Char.ofNat_toNat] at hchar

theorem IsLowerChar.ascii {c : Char} (h : IsLowerChar c) : c.toNat < 128 :=
  Nat.lt_of_le_of_lt (Char.le_def.mp h.2 : c.toNat ≤ 'z'.toNat) (by decide)

theorem IsUpperChar.ascii {c : Char} (h : IsUpperChar c) : c.toNat < 128 :=
  Nat.lt_of_le_of_lt (Char.le_def.mp h.2 : c.toNat ≤ 'Z'.toNat) (by decide)

theorem IsDigitChar.ascii {c : Char} (h : IsDigitChar c) : c.toNat < 128 :=
  Nat.lt_of_le_of_lt (Char.le_def.mp h.2 : c.toNat ≤ '9'.toNat) (by decide)

/-- No letter is of both cases. -/
theorem IsUpperChar.not_lower {c : Char} (h : IsUpperChar c) : ¬ IsLowerChar c :=
  ascii_forall (p := fun c => IsUpperChar c → ¬ IsLowerChar c) (by decide) h.ascii h

theorem IsUpperChar.toUpper_eq {c : Char} (h : IsUpperChar c) : c.toUpper = c :=
  ascii_forall (p := fun c => IsUpperChar c → c.toUpper = c) (by decide) h.ascii h

theorem IsLowerChar.toUpper_ne {c : Char} (h : IsLowerChar c) : c.toUpper ≠ '_' :=
  ascii_forall (p := fun c => IsLowerChar c → c.toUpper ≠ '_') (by decide) h.ascii h

theorem toUpper_ascii {c : Char} (h : c.toNat < 128) :
    c.toUpper.toUpper = c.toUpper ∧ c.toUpper.toNat < 128 ∧ ¬ IsLowerChar c.toUpper :=
  ascii_forall (p := fun c => c.toUpper.toUpper = c.toUpper ∧ c.toUpper.toNat < 128 ∧
    ¬ IsLowerChar c.toUpper) (by decide) h

/-- Upper case loses the case of a letter only. -/
theorem toLower_toUpper {c : Char} (h : c.toNat < 128) (hc : ¬ IsUpperChar c) :
    c.toUpper.toLower = c :=
  ascii_forall (p := fun c => ¬ IsUpperChar c → c.toUpper.toLower = c) (by decide) h hc

/-! ### The substitution -/

/-- An underscore at every boundary between a lower-case and an upper-case letter. -/
def underscored : List Char → List Char
  | a :: b :: rest =>
    if IsLowerChar a ∧ IsUpperChar b then a :: '_' :: underscored (b :: rest)
    else a :: underscored (b :: rest)
  | cs => cs

theorem underscored_cons {a : Char} (h : ¬ IsLowerChar a) (cs : List Char) :
    underscored (a :: cs) = a :: underscored cs := by
  cases cs with
  | nil => rfl
  | cons b rest => rw [underscored, if_neg fun hab => h hab.1]

/-- **The non-overlapping substitution misses no boundary**: the upper-case letter that a match consumes
begins no other match. -/
theorem splitCamel_eq_underscored (cs : List Char) : splitCamel cs = underscored cs := by
  induction cs using splitCamel.induct with
  | case1 a b rest h ih =>
      have hab : IsLowerChar a ∧ IsUpperChar b := h
      rw [splitCamel, if_pos h, ih, underscored, if_pos hab, underscored_cons hab.2.not_lower]
  | case2 a b rest h ih =>
      have hab : ¬ (IsLowerChar a ∧ IsUpperChar b) := h
      rw [splitCamel, if_neg h, ih, underscored, if_neg hab]
  | case3 cs h => rw [splitCamel.eq_2 cs h, underscored.eq_2 cs h]

theorem mem_underscored {c : Char} {cs : List Char} (h : c ∈ underscored cs) : c ∈ cs ∨ c = '_' := by
  induction cs using underscored.induct with
  | case1 a b rest hab ih =>
      rw [underscored, if_pos hab] at h
      simp only [List.mem_cons] at h ih ⊢
      tauto
  | case2 a b rest hab ih =>
      rw [underscored, if_neg hab] at h
      simp only [List.mem_cons] at h ih ⊢
      tauto
  | case3 cs hshort =>
      rw [underscored.eq_2 cs hshort] at h
      exact Or.inl h

/-- Without an upper-case letter there is no boundary. -/
theorem underscored_of_no_upper {cs : List Char} (h : ∀ c ∈ cs, ¬ IsUpperChar c) :
    underscored cs = cs := by
  induction cs using underscored.induct with
  | case1 a b rest hab ih => exact absurd hab.2 (h b (by simp))
  | case2 a b rest hab ih =>
      rw [underscored, if_neg hab, ih fun c hc => h c (List.mem_cons_of_mem a hc)]
  | case3 cs hshort => exact underscored.eq_2 cs hshort

/-- Nor without a lower-case letter. -/
theorem underscored_of_no_lower {cs : List Char} (h : ∀ c ∈ cs, ¬ IsLowerChar c) :
    underscored cs = cs := by
  induction cs with
  | nil => rfl
  | cons a cs ih =>
      rw [underscored_cons (h a List.mem_cons_self), ih fun c hc => h c (List.mem_cons_of_mem a hc)]

/-! ### The renaming of an ASCII name -/

/-- Every character of the name is an ASCII character. -/
def IsAscii (name : String) : Prop := ∀ c ∈ name.toList, c.toNat < 128

theorem underscored_ascii {name : String} (h : IsAscii name) :
    ∀ c ∈ underscored name.toList, c.toNat < 128 := by
  intro c hc
  rcases mem_underscored hc with hc | rfl
  · exact h c hc
  · decide

theorem toList_pgColToSf (P : Platform) {name : String} (h : IsAscii name) :
    (pgColToSf P name).toList = (underscored name.toList).map Char.toUpper := by
  rw [pgColToSf_ascii P (by rw [splitCamel_eq_underscored]; exact underscored_ascii h),
    splitCamel_eq_underscored, String.toList_ofList]

/-- **Renaming an ASCII name again changes nothing.** -/
theorem pgColToSf_idem (P : Platform) {name : String} (h : IsAscii name) :
    pgColToSf P (pgColToSf P name) = pgColToSf P name := by
  have hlist := toList_pgColToSf P h
  have hupper : ∀ c ∈ (pgColToSf P name).toList,
      c.toUpper = c ∧ c.toNat < 128 ∧ ¬ IsLowerChar c := by
    intro c hc
    rw [hlist] at hc
    obtain ⟨b, hb, rfl⟩ := List.mem_map.mp hc
    exact toUpper_ascii (underscored_ascii h b hb)
  have hascii : IsAscii (pgColToSf P name) := fun c hc => (hupper c hc).2.1
  apply String.toList_injective
  rw [toList_pgColToSf P hascii, underscored_of_no_lower fun c hc => (hupper c hc).2.2]
  conv_rhs => rw [← List.map_id (pgColToSf P name).toList]
  exact List.map_congr_left fun c hc => (hupper c hc).1

/-! ### Strict camelCase -/

/-- `[a-z]+`. -/
def IsWord (cs : List Char) : Prop := cs ≠ [] ∧ ∀ c ∈ cs, IsLowerChar c

/-- `[A-Z][a-z]+`. -/
def IsCapitalWord (cs : List Char) : Prop := ∃ a w, cs = a :: w ∧ IsUpperChar a ∧ IsWord w

/-- `[a-z]+([A-Z][a-z]+)*`. -/
def StrictCamel (name : String) : Prop :=
  ∃ first words, name.toList = first ++ List.flatten words ∧ IsWord first ∧
    ∀ w ∈ words, IsCapitalWord w

/-- The name that a renamed strict camelCase name comes from. -/
def camelName : List Char → List Char
  | '_' :: c :: cs => c :: camelName cs
  | c :: cs => c.toLower :: camelName cs
  | [] => []

/-- Between lower-case letters nothing is inserted. -/
theorem underscored_lower_append {w : List Char} (hw : ∀ c ∈ w, IsLowerChar c) {c : Char}
    (hc : IsLowerChar c) (cs : List Char) :
    underscored (w ++ c :: cs) = w ++ underscored (c :: cs) := by
  induction w with
  | nil => rfl
  | cons a w ih =>
      have hrest := ih fun d hd => hw d (List.mem_cons_of_mem a hd)
      cases w with
      | nil =>
          have hboundary : ¬ (IsLowerChar a ∧ IsUpperChar c) := fun h => h.2.not_lower hc
          show underscored (a :: c :: cs) = a :: underscored (c :: cs)
          rw [underscored, if_neg hboundary]
      | cons b w =>
          have hboundary : ¬ (IsLowerChar a ∧ IsUpperChar b) :=
            fun h => h.2.not_lower (hw b (by simp))
          show underscored (a :: b :: (w ++ c :: cs)) = _
          rw [underscored, if_neg hboundary]
          exact congrArg (a :: ·) hrest

/-- **The words of a strict camelCase name are joined by underscores.** -/
theorem underscored_words {w : List Char} {ws : List (List Char)} (hw : IsWord w)
    (hws : ∀ v ∈ ws, IsCapitalWord v) :
    underscored (w ++ ws.flatten) = w ++ ws.flatMap ('_' :: ·) := by
  induction ws generalizing w with
  | nil =>
      simpa using underscored_of_no_upper fun c hc h => h.not_lower (hw.2 c hc)
  | cons v ws ih =>
      obtain ⟨a, u, rfl, ha, hu⟩ := hws v List.mem_cons_self
      obtain hnil | ⟨w, c, rfl⟩ := w.eq_nil_or_concat
      · exact absurd hnil hw.1
      · have hlower : ∀ d ∈ w ++ [c], IsLowerChar d := by simpa using hw.2
        have hc : IsLowerChar c := hlower c (by simp)
        have hrest := ih hu fun v hv => hws v (List.mem_cons_of_mem _ hv)
        have hjoin : underscored (c :: a :: (u ++ ws.flatten)) =
            c :: '_' :: a :: (u ++ ws.flatMap ('_' :: ·)) := by
          rw [underscored, if_pos ⟨hc, ha⟩, underscored_cons ha.not_lower, hrest]
        have hsplit := underscored_lower_append (fun d hd => hlower d (List.mem_append_left _ hd)) hc
          (a :: (u ++ ws.flatten))
        rw [hjoin] at hsplit
        simpa using hsplit

theorem camelName_lower_append {w : List Char} (hw : ∀ c ∈ w, IsLowerChar c) (cs : List Char) :
    camelName (w.map Char.toUpper ++ cs) = w ++ camelName cs := by
  induction w with
  | nil => rfl
  | cons a w ih =>
      have ha := hw a List.mem_cons_self
      have hlower := toLower_toUpper ha.ascii fun h => h.not_lower ha
      have hrest := ih fun c hc => hw c (List.mem_cons_of_mem a hc)
      show camelName (a.toUpper :: (w.map Char.toUpper ++ cs)) = _
      rw [camelName.eq_2 _ _ fun _ _ h => absurd h ha.toUpper_ne, hlower, hrest]
      rfl

/-- **A strict camelCase name is recovered** from its words in upper case, joined by underscores. -/
theorem camelName_words {w : List Char} {ws : List (List Char)} (hw : IsWord w)
    (hws : ∀ v ∈ ws, IsCapitalWord v) :
    camelName ((w ++ ws.flatMap ('_' :: ·)).map Char.toUpper) = w ++ ws.flatten := by
  induction ws generalizing w with
  | nil =>
      simpa [camelName] using camelName_lower_append hw.2 []
  | cons v ws ih =>
      obtain ⟨a, u, rfl, ha, hu⟩ := hws v List.mem_cons_self
      have hrest := ih hu fun v hv => hws v (List.mem_cons_of_mem _ hv)
      have hstep : camelName ('_' :: a :: (u ++ ws.flatMap ('_' :: ·)).map Char.toUpper) =
          a :: (u ++ ws.flatten) := by
        rw [camelName, hrest]
      have happend := camelName_lower_append hw.2
        ('_' :: a :: (u ++ ws.flatMap ('_' :: ·)).map Char.toUpper)
      rw [hstep] at happend
      have hunderscore : Char.toUpper '_' = '_' := by decide
      simpa [ha.toUpper_eq, hunderscore] using happend

theorem StrictCamel.isAscii {name : String} (h : StrictCamel name) : IsAscii name := by
  obtain ⟨w, ws, hname, hw, hws⟩ := h
  intro c hc
  rw [hname, List.mem_append, List.mem_flatten] at hc
  rcases hc with hc | ⟨v, hv, hc⟩
  · exact (hw.2 c hc).ascii
  · obtain ⟨a, u, rfl, ha, hu⟩ := hws v hv
    rcases List.mem_cons.mp hc with rfl | hc
    · exact ha.ascii
    · exact (hu.2 c hc).ascii

theorem camelName_pgColToSf (P : Platform) {name : String} (h : StrictCamel name) :
    String.ofList (camelName (pgColToSf P name).toList) = name := by
  have hascii := h.isAscii
  obtain ⟨w, ws, hname, hw, hws⟩ := h
  rw [toList_pgColToSf P hascii, hname, underscored_words hw hws, camelName_words hw hws, ← hname,
    String.ofList_toList]

/-! ### Lower snake_case -/

/-- `[a-z0-9_]+`. -/
def LowerSnake (name : String) : Prop :=
  name.toList ≠ [] ∧ ∀ c ∈ name.toList, IsLowerChar c ∨ IsDigitChar c ∨ c = '_'

theorem LowerSnake.chars {name : String} (h : LowerSnake name) :
    ∀ c ∈ name.toList, c.toNat < 128 ∧ ¬ IsUpperChar c := by
  intro c hc
  rcases h.2 c hc with hlower | hdigit | rfl
  · exact ⟨hlower.ascii, fun hupper => hupper.not_lower hlower⟩
  · exact ⟨hdigit.ascii, ascii_forall (p := fun c => IsDigitChar c → ¬ IsUpperChar c) (by decide)
      hdigit.ascii hdigit⟩
  · decide

/-- The name that a renamed lower snake_case name comes from. -/
def snakeName (cs : List Char) : List Char := cs.map Char.toLower

theorem snakeName_pgColToSf (P : Platform) {name : String} (h : LowerSnake name) :
    String.ofList (snakeName (pgColToSf P name).toList) = name := by
  have hchars := h.chars
  have hlower : (name.toList.map Char.toUpper).map Char.toLower = name.toList := by
    rw [List.map_map]
    conv_rhs => rw [← List.map_id name.toList]
    exact List.map_congr_left fun c hc => toLower_toUpper (hchars c hc).1 (hchars c hc).2
  rw [toList_pgColToSf P fun c hc => (hchars c hc).1,
    underscored_of_no_upper fun c hc => (hchars c hc).2, snakeName, hlower, String.ofList_toList]

/-! ### Rows -/

/-- Names of one style. -/
def OneStyle (names : List String) : Prop :=
  (∀ c ∈ names, StrictCamel c) ∨ ∀ c ∈ names, LowerSnake c

theorem OneStyle.isAscii {names : List String} (h : OneStyle names) : ∀ c ∈ names, IsAscii c := by
  rcases h with h | h
  · exact fun c hc => (h c hc).isAscii
  · exact fun c hc d hd => ((h c hc).chars d hd).1

/-- **In one style different names are renamed differently.** -/
theorem OneStyle.pgColToSf_inj (P : Platform) {names : List String} (h : OneStyle names) {c c' : String}
    (hc : c ∈ names) (hc' : c' ∈ names) (heq : pgColToSf P c = pgColToSf P c') : c = c' := by
  rcases h with h | h
  · rw [← camelName_pgColToSf P (h c hc), heq, camelName_pgColToSf P (h c' hc')]
  · rw [← snakeName_pgColToSf P (h c hc), heq, snakeName_pgColToSf P (h c' hc')]

/-- The JSON text of a `dict` or `list`. -/
def containerDumps : PyVal → Option String
  | .dict kvs => some (Json.obj kvs).dumps
  | .list xs => some (Json.arr xs).dumps
  | _ => none

theorem convertValue_eq (pgKey : String) (val : PyVal) :
    convertValue pgKey val =
      if pgKey ∈ jsonbCols then (containerDumps val).elim val .str else val := by
  cases val <;> rfl

/-- **A row in one naming style keeps its columns.**  The substitution puts an underscore at every
lower-to-upper boundary and nowhere else, each name is recovered from its renaming, different columns
get different names, renaming again changes nothing, and the converted row has one entry for each
column, in order, with the value of the column, as JSON text if that is a container in a JSONB column. -/
theorem rowToSf_of_style (P : Platform) (row : Row) (h : OneStyle row.keys) :
    (∀ c ∈ row.keys, splitCamel c.toList = underscored c.toList ∧
      (pgColToSf P c).toList = (underscored c.toList).map Char.toUpper) ∧
      (∀ c, StrictCamel c → String.ofList (camelName (pgColToSf P c).toList) = c) ∧
      (∀ c, LowerSnake c → String.ofList (snakeName (pgColToSf P c).toList) = c) ∧
      (∀ c ∈ row.keys, ∀ c' ∈ row.keys, pgColToSf P c = pgColToSf P c' → c = c') ∧
      (∀ c ∈ row.keys, pgColToSf P (pgColToSf P c) = pgColToSf P c) ∧
      (rowToSf P row).entries = row.entries.map fun p =>
        (pgColToSf P p.1,
          if p.1 ∈ jsonbCols then (containerDumps p.2).elim p.2 .str else p.2) := by
  have hascii := h.isAscii
  refine ⟨?_, fun _ => camelName_pgColToSf P, fun _ => snakeName_pgColToSf P, ?_, ?_, ?_⟩
  · intro c hc
    exact ⟨splitCamel_eq_underscored c.toList, toList_pgColToSf P (hascii c hc)⟩
  · intro c hc c' hc' heq
    exact h.pgColToSf_inj P hc hc' heq
  · intro c hc
    exact pgColToSf_idem P (hascii c hc)
  · have hnodup : (row.keys.map (pgColToSf P)).Nodup :=
      row.nodup.map_on fun c hc c' hc' heq => h.pgColToSf_inj P hc hc' heq
    rw [entries_rowToSf hnodup]
    simp only [convertValue_eq]

/-- A customer as psycopg2 delivers it. -/
def customerRow : Row :=
  ⟨[("id", .int 1), ("tenantId", .int 7), ("metadata", .dict [("plan", .str "free")])], by simp⟩

theorem oneStyle_customerRow : OneStyle customerRow.keys := by
  have hword : ∀ w : List Char, w ≠ [] → (∀ c ∈ w, IsLowerChar c) → IsWord w := fun _ h h' => ⟨h, h'⟩
  refine Or.inl fun c hc => ?_
  have hmem : c = "id" ∨ c = "tenantId" ∨ c = "metadata" := by simpa [customerRow, Dict.keys] using hc
  rcases hmem with rfl | rfl | rfl
  · exact ⟨['i', 'd'], [], rfl, hword _ (by simp) (by simp [IsLowerChar]), by simp⟩
  · refine ⟨['t', 'e', 'n', 'a', 'n', 't'], [['I', 'd']], rfl, hword _ (by simp) (by simp [IsLowerChar]),
      ?_⟩
    intro w hw
    rw [List.mem_singleton.mp hw]
    exact ⟨'I', ['d'], rfl, by simp [IsUpperChar], hword _ (by simp) (by simp [IsLowerChar])⟩
  · exact ⟨['m', 'e', 't', 'a', 'd', 'a', 't', 'a'], [], rfl, hword _ (by simp) (by simp [IsLowerChar]),
      by simp⟩

/-- Its columns come out as `ID`, `TENANT_ID` and `METADATA`. -/
theorem rowToSf_of_style_customer :
    (rowToSf .ascii customerRow).keys = ["ID", "TENANT_ID", "METADATA"] := by
  obtain ⟨-, -, -, -, -, hentries⟩ := rowToSf_of_style .ascii customerRow oneStyle_customerRow
  rw [Dict.keys, hentries]
  decide

/-- Across the styles names do collide. -/
example : pgColToSf .ascii "tenantId" = pgColToSf .ascii "tenant_id" := by decide

end PgSnowflakeCdc
