import PgSnowflakeCdc.JsonText

/-!
# JSON files

The text `json.dump(…, indent=2)` writes for a dictionary without containers in it, and what `json.load`
makes of a file that holds only the front of such a text.

* `dumpFlat` — the text; `loads_dumpFlat` — **it reads back**;
* `read_suffix` — every reader leaves the end of its text;
* `loads_cut`, `loads_dumpFlat_cut` — **the front of a dictionary's text is no text**, wherever it is cut.
-/

namespace PgSnowflakeCdc

namespace Json

/-! ### The text -/

/-- `json.dump(d, f, indent=2)`, for values that are no containers. -/
def dumpFlat : List (String × Json) → String
  | [] => "\x7b\x7d"
  | kvs => "\x7b\n  " ++ String.intercalate ",\n  " (dumpFields kvs) ++ "\n\x7d"

/-- A line break and the indentation. -/
def indent : List Char := ['\n', ' ', ' ']

/-- What stands between the braces. -/
def flatBody (kv : String × Json) (kvs : List (String × Json)) : List Char :=
  indent ++ (fieldText kv.1 (dumps kv.2).toList ++
    tailText indent '\n' (kvs.map fun kv => fieldText kv.1 (dumps kv.2).toList))

theorem toList_field (kv : String × Json) :
    (quote kv.1 ++ ": " ++ dumps kv.2).toList = fieldText kv.1 (dumps kv.2).toList := by
  simp [fieldText, toList_quote, String.toList_append]

theorem toList_dumpFlat (kv : String × Json) (kvs : List (String × Json)) :
    (dumpFlat (kv :: kvs)).toList = '\x7b' :: (flatBody kv kvs ++ ['\x7d']) := by
  have hjoin := toList_join indent '\n' (quote kv.1 ++ ": " ++ dumps kv.2)
    (kvs.map fun kv => quote kv.1 ++ ": " ++ dumps kv.2)
  rw [List.map_map, toList_field,
    show String.toList ∘ (fun kv : String × Json => quote kv.1 ++ ": " ++ dumps kv.2) =
      fun kv => fieldText kv.1 (dumps kv.2).toList from funext toList_field,
    show String.ofList (',' :: indent) = ",\n  " by decide] at hjoin
  have hdump : dumpFlat (kv :: kvs)
      = "\x7b\n  " ++ String.intercalate ",\n  " (dumpFields (kv :: kvs)) ++ "\n\x7d" := rfl
  rw [hdump, dumpFields_eq, List.map_cons, String.toList_append, String.toList_append,
    show "\x7b\n  ".toList = '\x7b' :: indent by decide,
    show "\n\x7d".toList = ['\n'] ++ ['\x7d'] by decide, List.append_assoc,
    ← List.append_assoc _ ['\n'], hjoin, List.cons_append, flatBody, List.append_assoc,
    List.append_assoc, List.append_assoc]

/-! ### Reading it -/

theorem isSpace_indent : ∀ c ∈ indent, isSpace c = true := by
  simp [indent, isSpace]

/-- **The fields behind the first one are read in order**, up to a brace on its own line. -/
theorem readFields_indented {n : ℕ} {ts : List (List Char)} {kvs : List (String × Json)}
    (h : List.Forall₂ (ReadsField n) ts kvs) {m : ℕ} (hm : n + ts.length + 2 ≤ m)
    (rest : List Char) :
    readFields m (tailText indent '\n' ts ++ '\x7d' :: rest) = some (kvs, rest) := by
  induction h generalizing m with
  | nil =>
      cases m with
      | zero => omega
      | succ m => rfl
  | @cons t kv ts kvs hkv hkvs ih =>
      obtain ⟨t', rfl, hread⟩ := hkv
      rw [List.length_cons] at hm
      cases m with
      | zero => omega
      | succ m =>
          have hfield := readField_fieldText hread kv.1 (show n + 1 ≤ m by omega)
            (stops_tailText indent (show isWordChar '\n' = false by decide) ts ('\x7d' :: rest))
          rw [← readField_blank isSpace_indent] at hfield
          rw [tailText_cons, List.cons_append, List.append_assoc, List.append_assoc]
          exact readFields_of_field hfield (ih (by omega))

theorem reads_indented {n : ℕ} {t : List Char} {kv : String × Json} {ts : List (List Char)}
    {kvs : List (String × Json)} (hkv : ReadsField n t kv)
    (hkvs : List.Forall₂ (ReadsField n) ts kvs) :
    Reads (n + ts.length + 3) ('\x7b' :: (indent ++ (t ++ tailText indent '\n' ts) ++ ['\x7d']))
      (.obj (kv :: kvs)) := by
  intro m rest hm hrest
  obtain ⟨t', rfl, hread⟩ := hkv
  cases m with
  | zero => omega
  | succ m =>
      have hfield := readField_fieldText hread kv.1 (show n + 1 ≤ m by omega)
        (stops_tailText indent (show isWordChar '\n' = false by decide) ts ('\x7d' :: rest))
      rw [← readField_blank isSpace_indent] at hfield
      rw [List.cons_append, List.append_assoc, List.append_assoc, List.append_assoc]
      exact read_of_fields hfield (readFields_indented hkvs (by omega) rest)

/-- **The text of a dictionary reads back.** -/
theorem loads_dumpFlat {kvs : List (String × Json)} (h : ∀ kv ∈ kvs, Written kv.2) :
    loads (dumpFlat kvs) = some (.obj kvs) := by
  cases kvs with
  | nil => decide
  | cons kv kvs =>
      -- fuel for the longest value; the length of the text is enough for it
      obtain ⟨hlen, hts⟩ := @length_tailText_le indent '\n'
        (kvs.map fun kv => fieldText kv.1 (dumps kv.2).toList)
      rw [List.length_map] at hlen hts
      have hfirst := reads_dumps kv.2 (h kv List.mem_cons_self)
      have hfield := length_fieldText kv.1 (dumps kv.2).toList
      have htext := toList_dumpFlat kv kvs
      have hlength := congrArg List.length htext
      rw [flatBody] at htext hlength
      simp only [List.length_cons, List.length_append, List.length_nil] at hlength
      generalize hN :
        (tailText indent '\n' (kvs.map fun kv => fieldText kv.1 (dumps kv.2).toList)).length = N at *
      let n := (dumps kv.2).toList.length + N - kvs.length - 1
      have hrest : List.Forall₂ (ReadsField n)
          (kvs.map fun kv => fieldText kv.1 (dumps kv.2).toList) kvs := by
        rw [List.forall₂_map_left_iff, List.forall₂_same]
        intro p hp
        have hp' := hts _ (List.mem_map_of_mem hp)
        rw [length_fieldText] at hp'
        exact ⟨_, rfl, (reads_dumps p.2 (h p (List.mem_cons_of_mem _ hp))).mono (by omega)⟩
      have hread := reads_indented ⟨_, rfl, hfirst.mono (by omega)⟩ hrest
      rw [← htext] at hread
      refine loads_of_reads hread ?_
      rw [hlength, List.length_map, hfield]
      omega

/-! ### What a reader leaves -/

theorem skipSpace_suffix (cs : List Char) : skipSpace cs <:+ cs := List.dropWhile_suffix _

theorem readHex4_suffix {cs r : List Char} {u : ℕ} (h : readHex4 cs = some (u, r)) : r <:+ cs := by
  rw [readHex4.eq_def] at h
  split at h
  · next a b c d cs =>
    simp only [bind, Option.bind_eq_some_iff, Option.some.injEq, Prod.mk.injEq] at h
    obtain ⟨-, -, -, -, -, -, -, -, -, hr⟩ := h
    rw [← hr]
    exact ⟨[a, b, c, d], rfl⟩
  · cases h

theorem readEscape_suffix {cs r : List Char} {u : ℕ} (h : readEscape cs = some (u, r)) : r <:+ cs := by
  cases cs with
  | nil => cases h
  | cons c cs =>
      rw [readEscape] at h
      split at h
      · exact (readHex4_suffix h).trans (List.suffix_cons c _)
      · obtain ⟨v, -, heq⟩ := Option.map_eq_some_iff.mp h
        cases heq
        exact List.suffix_cons c _

/-- The induction is on the fuel. -/
theorem readUnits_suffix (n : ℕ) : ∀ {cs r : List Char} {us : List ℕ},
    readUnits n cs = some (us, r) → r <:+ cs := by
  induction n with
  | zero =>
      intro cs r us h
      cases h
  | succ n ih =>
      intro cs r us h
      cases cs with
      | nil => cases h
      | cons c cs =>
          rw [readUnits] at h
          split at h
          · cases h
            exact List.suffix_cons c _
          split at h
          · simp only [bind, Option.bind_eq_some_iff] at h
            obtain ⟨⟨u, cs'⟩, hescape, ⟨vs, cs''⟩, hunits, heq⟩ := h
            cases heq
            exact ((ih hunits).trans (readEscape_suffix hescape)).trans (List.suffix_cons c _)
          split at h
          · cases h
          · simp only [bind, Option.bind_eq_some_iff] at h
            obtain ⟨⟨vs, cs'⟩, hunits, heq⟩ := h
            cases heq
            exact (ih hunits).trans (List.suffix_cons c cs)

theorem readString_suffix {cs r : List Char} {s : String} (h : readString cs = some (s, r)) :
    r <:+ cs := by
  rw [readString] at h
  simp only [bind, Option.bind_eq_some_iff] at h
  obtain ⟨⟨us, cs'⟩, hunits, chars, -, heq⟩ := h
  cases heq
  exact readUnits_suffix _ hunits

/-- **Every reader leaves the end of its text.**  The induction is on the fuel, for the four of them at
once. -/
theorem read_suffix (n : ℕ) :
    (∀ cs x r, read n cs = some (x, r) → r <:+ cs) ∧
      (∀ cs xs r, readItems n cs = some (xs, r) → r <:+ cs) ∧
      (∀ cs kv r, readField n cs = some (kv, r) → r <:+ cs) ∧
      ∀ cs kvs r, readFields n cs = some (kvs, r) → r <:+ cs := by
  induction n with
  | zero =>
      refine ⟨?_, ?_, ?_, ?_⟩ <;>
        (intro cs x r h; cases h)
  | succ n ih =>
      obtain ⟨hread, hitems, hfield, hfields⟩ := ih
      have hbehind : ∀ {cs c cs' r}, skipSpace cs = c :: cs' → r <:+ cs' → r <:+ cs := by
        intro cs c cs' r hskip hr
        have hskipped := skipSpace_suffix cs
        rw [hskip] at hskipped
        exact (hr.trans (List.suffix_cons c cs')).trans hskipped
      refine ⟨?_, ?_, ?_, ?_⟩
      · intro cs x r h
        rw [read] at h
        split at h
        · cases h
        · next c cs' hskip =>
          split at h
          · obtain ⟨p, hstring, heq⟩ := Option.map_eq_some_iff.mp h
            cases heq
            exact hbehind hskip (readString_suffix hstring)
          split at h
          · split at h
            · cases h
              exact hbehind hskip ((List.tail_suffix _).trans (skipSpace_suffix _))
            · simp only [bind, Option.bind_eq_some_iff] at h
              obtain ⟨⟨y, cs₁⟩, hy, ⟨ys, cs₂⟩, hys, heq⟩ := h
              cases heq
              exact hbehind hskip ((hitems _ _ _ hys).trans (hread _ _ _ hy))
          split at h
          · split at h
            · cases h
              exact hbehind hskip ((List.tail_suffix _).trans (skipSpace_suffix _))
            · simp only [bind, Option.bind_eq_some_iff] at h
              obtain ⟨⟨kv, cs₁⟩, hkv, ⟨kvs, cs₂⟩, hkvs, heq⟩ := h
              cases heq
              exact hbehind hskip ((hfields _ _ _ hkvs).trans (hfield _ _ _ hkv))
          · obtain ⟨y, -, heq⟩ := Option.map_eq_some_iff.mp h
            cases heq
            rw [← hskip]
            exact (List.dropWhile_suffix _).trans (skipSpace_suffix cs)
      · intro cs xs r h
        rw [readItems] at h
        split at h
        · cases h
        · next c cs' hskip =>
          split at h
          · cases h
            exact hbehind hskip List.suffix_rfl
          split at h
          · simp only [bind, Option.bind_eq_some_iff] at h
            obtain ⟨⟨y, cs₁⟩, hy, ⟨ys, cs₂⟩, hys, heq⟩ := h
            cases heq
            exact hbehind hskip ((hitems _ _ _ hys).trans (hread _ _ _ hy))
          · cases h
      · intro cs kv r h
        rw [readField] at h
        split at h
        · cases h
        · next c cs' hskip =>
          split at h
          · simp only [bind, Option.bind_eq_some_iff] at h
            obtain ⟨⟨k, cs₁⟩, hk, h⟩ := h
            split at h
            · simp only [Option.bind_eq_some_iff] at h
              obtain ⟨⟨y, cs₂⟩, hy, heq⟩ := h
              cases heq
              have hvalue := (hread _ _ _ hy).trans ((List.tail_suffix _).trans (skipSpace_suffix cs₁))
              exact hbehind hskip (hvalue.trans (readString_suffix hk))
            · cases h
          · cases h
      · intro cs kvs r h
        rw [readFields] at h
        split at h
        · cases h
        · next c cs' hskip =>
          split at h
          · cases h
            exact hbehind hskip List.suffix_rfl
          split at h
          · simp only [bind, Option.bind_eq_some_iff] at h
            obtain ⟨⟨kv, cs₁⟩, hkv, ⟨kvs', cs₂⟩, hkvs, heq⟩ := h
            cases heq
            exact hbehind hskip ((hfields _ _ _ hkvs).trans (hfield _ _ _ hkv))
          · cases h

/-! ### A text that was cut off -/

/-- Reading fields ends behind a closing brace.  The induction is on the fuel. -/
theorem brace_mem_of_readFields (n : ℕ) : ∀ {cs r : List Char} {kvs : List (String × Json)},
    readFields n cs = some (kvs, r) → '\x7d' ∈ cs := by
  induction n with
  | zero =>
      intro cs r kvs h
      cases h
  | succ n ih =>
      intro cs r kvs h
      rw [readFields] at h
      split at h
      · cases h
      · next c cs' hskip =>
        have hskipped := skipSpace_suffix cs
        rw [hskip] at hskipped
        split at h
        · next hclose =>
          rw [hclose] at hskipped
          exact hskipped.subset List.mem_cons_self
        split at h
        · simp only [bind, Option.bind_eq_some_iff] at h
          obtain ⟨⟨kv, cs₁⟩, hkv, ⟨kvs', cs₂⟩, hkvs, -⟩ := h
          have hfield := (read_suffix n).2.2.1 _ _ _ hkv
          exact hskipped.subset (List.mem_cons_of_mem c (hfield.subset (ih hkvs)))
        · cases h

/-- Behind an opening brace there is a closing one. -/
theorem read_unclosed {cs : List Char} (h : '\x7d' ∉ cs) (n : ℕ) : read n ('\x7b' :: cs) = none := by
  cases n with
  | zero => rfl
  | succ n =>
      rw [Option.eq_none_iff_forall_ne_some]
      intro p hread
      have hskip : skipSpace ('\x7b' :: cs) = '\x7b' :: cs := rfl
      rw [read, hskip] at hread
      dsimp only at hread
      rw [if_neg (by decide), if_neg (by decide), if_pos rfl] at hread
      split at hread
      · next hhead => exact h ((skipSpace_suffix cs).subset (List.mem_of_mem_head? hhead))
      · simp only [bind, Option.bind_eq_some_iff] at hread
        obtain ⟨⟨kv, cs₁⟩, hkv, ⟨kvs, cs₂⟩, hkvs, -⟩ := hread
        have hfield := (read_suffix n).2.2.1 _ _ _ hkv
        exact h (hfield.subset (brace_mem_of_readFields n hkvs))

/-- **The front of a dictionary's text is no text**, wherever it is cut, when the only closing brace is the
one at the end. -/
theorem loads_cut {text : String} {body : List Char} (htext : text.toList = '\x7b' :: (body ++ ['\x7d']))
    (hbody : '\x7d' ∉ body) {n : ℕ} (hn : n < text.toList.length) :
    loads (String.ofList (text.toList.take n)) = none := by
  cases n with
  | zero =>
      rw [List.take_zero]
      rfl
  | succ n =>
      rw [htext, List.length_cons, List.length_append, List.length_singleton] at hn
      have hcut : text.toList.take (n + 1) = '\x7b' :: body.take n := by
        rw [htext, List.take_succ_cons, List.take_append_of_le_length (by omega)]
      have hfree : '\x7d' ∉ body.take n := fun hmem => hbody (List.mem_of_mem_take hmem)
      rw [loads, String.toList_ofList, hcut, read_unclosed hfree]

theorem brace_notMem_tailText {sep : List Char} (hsep : '\x7d' ∉ sep) {close : Char}
    (hclose : '\x7d' ≠ close) {ts : List (List Char)} (h : ∀ t ∈ ts, '\x7d' ∉ t) :
    '\x7d' ∉ tailText sep close ts := by
  induction ts with
  | nil => exact fun hmem => hclose (List.mem_singleton.mp hmem)
  | cons t ts ih =>
      rw [tailText_cons, List.mem_cons, List.mem_append, List.mem_append, not_or, not_or, not_or]
      exact ⟨by decide, hsep, h t List.mem_cons_self, ih fun t ht => h t (List.mem_cons_of_mem _ ht)⟩

/-- No key and no value is written with a brace. -/
def BraceFree (kvs : List (String × Json)) : Prop :=
  ∀ kv ∈ kvs, '\x7d' ∉ fieldText kv.1 (dumps kv.2).toList

/-- **A file that was cut off cannot be read.** -/
theorem loads_dumpFlat_cut {kvs : List (String × Json)} (hne : kvs ≠ []) (h : BraceFree kvs) {n : ℕ}
    (hn : n < (dumpFlat kvs).toList.length) :
    loads (String.ofList ((dumpFlat kvs).toList.take n)) = none := by
  obtain ⟨kv, kvs, rfl⟩ := List.exists_cons_of_ne_nil hne
  have hindent : '\x7d' ∉ indent := by decide
  refine loads_cut (toList_dumpFlat kv kvs) ?_ hn
  rw [flatBody, List.mem_append, List.mem_append, not_or, not_or]
  refine ⟨hindent, h kv List.mem_cons_self, brace_notMem_tailText hindent (by decide) ?_⟩
  intro t ht
  obtain ⟨p, hp, rfl⟩ := List.mem_map.mp ht
  exact h p (List.mem_cons_of_mem _ hp)

end Json

end PgSnowflakeCdc
