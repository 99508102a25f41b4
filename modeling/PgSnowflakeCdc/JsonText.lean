import PgSnowflakeCdc.Foundations.Numerals
import PgSnowflakeCdc.Values

/-!
# Reading JSON texts

A reader of JSON texts, and what it makes of the texts `dumps` writes.  Whoever receives a text of the
service (the log intake, the metrics interface, a probe, `PARSE_JSON`) reads it this way.

* `read` — a value at the front of a text, and the rest; white space, the escapes with their surrogate
  pairs, and the number grammar are those of the JSON standard;
* `loads` — a whole text;
* `Written` — the values whose floats have a number as their text (`inf` and `nan` have none);
* `read_text`, `loads_dumps` — **what is written is read back**, `dumps_inj`;
* `printable_dumps` — **a text is one line of printable ASCII**.
-/

namespace PgSnowflakeCdc

namespace Json

/-! ### The reader -/

def isSpace (c : Char) : Bool := c == ' ' || c == '\t' || c == '\n' || c == '\r'

def skipSpace (cs : List Char) : List Char := cs.dropWhile isSpace

/-- The four digits of a `\u` escape. -/
def readHex4 : List Char → Option (ℕ × List Char)
  | a :: b :: c :: d :: cs => do
    let a ← Numerals.hexadecimal.digitOf a
    let b ← Numerals.hexadecimal.digitOf b
    let c ← Numerals.hexadecimal.digitOf c
    let d ← Numerals.hexadecimal.digitOf d
    some (a * 4096 + b * 256 + c * 16 + d, cs)
  | _ => none

/-- The escapes of one letter. -/
def shortEscape (c : Char) : Option ℕ :=
  if c = '"' then some 0x22
  else if c = '\\' then some 0x5C
  else if c = '/' then some 0x2F
  else if c = 'b' then some 0x08
  else if c = 'f' then some 0x0C
  else if c = 'n' then some 0x0A
  else if c = 'r' then some 0x0D
  else if c = 't' then some 0x09
  else none

/-- The code unit of an escape, behind its backslash. -/
def readEscape : List Char → Option (ℕ × List Char)
  | [] => none
  | c :: cs => if c = 'u' then readHex4 cs else (shortEscape c).map (·, cs)

/-- The UTF-16 code units of a character. -/
def utf16 (c : Char) : List ℕ :=
  if c.toNat < 0x10000 then [c.toNat]
  else [0xD800 + (c.toNat - 0x10000) / 0x400, 0xDC00 + (c.toNat - 0x10000) % 0x400]

/-- The characters of some code units; a surrogate without its partner is no character. -/
def ofUtf16 : List ℕ → Option (List Char)
  | [] => some []
  | [u] => if 0xD800 ≤ u ∧ u < 0xE000 then none else some [Char.ofNat u]
  | u :: v :: us =>
    if 0xD800 ≤ u ∧ u < 0xE000 then
      if u < 0xDC00 ∧ 0xDC00 ≤ v ∧ v < 0xE000 then
        (ofUtf16 us).map (Char.ofNat (0x10000 + (u - 0xD800) * 0x400 + (v - 0xDC00)) :: ·)
      else none
    else (ofUtf16 (v :: us)).map (Char.ofNat u :: ·)

/-- The code units up to the closing quotation mark. -/
def readUnits : ℕ → List Char → Option (List ℕ × List Char)
  | 0, _ => none
  | _ + 1, [] => none
  | n + 1, c :: cs =>
    if c = '"' then some ([], cs)
    else if c = '\\' then do
      let (u, cs) ← readEscape cs
      let (us, cs) ← readUnits n cs
      some (u :: us, cs)
    else if c.toNat < 0x20 then none
    else do
      let (us, cs) ← readUnits n cs
      some (utf16 c ++ us, cs)

/-- A string, behind its opening quotation mark. -/
def readString (cs : List Char) : Option (String × List Char) := do
  let (us, cs) ← readUnits (cs.length + 1) cs
  let chars ← ofUtf16 us
  some (String.ofList chars, cs)

/-- An exponent, or nothing. -/
def isExponent : List Char → Bool
  | [] => true
  | e :: cs =>
    let ds := if cs.head? = some '+' ∨ cs.head? = some '-' then cs.tail else cs
    (e == 'e' || e == 'E') && ds != [] && ds.all Char.isDigit

/-- What may stand behind the integer part of a float. -/
def isFraction : List Char → Bool
  | [] => false
  | c :: cs =>
    if c = '.' then cs.takeWhile Char.isDigit != [] && isExponent (cs.dropWhile Char.isDigit)
    else isExponent (c :: cs)

/-- The digits of an integer; the first of several is not zero. -/
def isIntPart (ds : List Char) : Bool := ds != [] && (ds.head? != some '0' || ds.length == 1)

def readNumber (word : List Char) : Option Json :=
  let digits := if word.head? = some '-' then word.tail else word
  let ds := digits.takeWhile Char.isDigit
  let rest := digits.dropWhile Char.isDigit
  if ¬ isIntPart ds then none
  else if rest = [] then
    some (.int (if word.head? = some '-' then -(Nat.ofDigitChars 10 ds 0 : ℤ)
      else Nat.ofDigitChars 10 ds 0))
  else if isFraction rest then some (.float (String.ofList word))
  else none

/-- The characters of a number or of a literal name. -/
def isWordChar (c : Char) : Bool := c.isAlphanum || c == '+' || c == '-' || c == '.'

def readWord (word : List Char) : Option Json :=
  if word = "null".toList then some .null
  else if word = "true".toList then some (.bool true)
  else if word = "false".toList then some (.bool false)
  else readNumber word

mutual

/-- The value at the front of a text, and the rest. -/
def read : ℕ → List Char → Option (Json × List Char)
  | 0, _ => none
  | n + 1, cs =>
    match skipSpace cs with
    | [] => none
    | c :: cs =>
      if c = '"' then (readString cs).map fun p => (.str p.1, p.2)
      else if c = '[' then
        if (skipSpace cs).head? = some ']' then some (.arr [], (skipSpace cs).tail)
        else do
          let (x, cs) ← read n cs
          let (xs, cs) ← readItems n cs
          some (.arr (x :: xs), cs)
      else if c = '\x7b' then
        if (skipSpace cs).head? = some '\x7d' then some (.obj [], (skipSpace cs).tail)
        else do
          let (kv, cs) ← readField n cs
          let (kvs, cs) ← readFields n cs
          some (.obj (kv :: kvs), cs)
      else (readWord ((c :: cs).takeWhile isWordChar)).map
        (·, (c :: cs).dropWhile isWordChar)

/-- The items behind the first one, up to the closing bracket. -/
def readItems : ℕ → List Char → Option (List Json × List Char)
  | 0, _ => none
  | n + 1, cs =>
    match skipSpace cs with
    | [] => none
    | c :: cs =>
      if c = ']' then some ([], cs)
      else if c = ',' then do
        let (x, cs) ← read n cs
        let (xs, cs) ← readItems n cs
        some (x :: xs, cs)
      else none

/-- A key and its value. -/
def readField : ℕ → List Char → Option ((String × Json) × List Char)
  | 0, _ => none
  | n + 1, cs =>
    match skipSpace cs with
    | [] => none
    | c :: cs =>
      if c = '"' then do
        let (k, cs) ← readString cs
        if (skipSpace cs).head? = some ':' then do
          let (x, cs) ← read n (skipSpace cs).tail
          some ((k, x), cs)
        else none
      else none

/-- The fields behind the first one, up to the closing brace. -/
def readFields : ℕ → List Char → Option (List (String × Json) × List Char)
  | 0, _ => none
  | n + 1, cs =>
    match skipSpace cs with
    | [] => none
    | c :: cs =>
      if c = '\x7d' then some ([], cs)
      else if c = ',' then do
        let (kv, cs) ← readField n cs
        let (kvs, cs) ← readFields n cs
        some (kv :: kvs, cs)
      else none

end

/-- `json.loads`: the value of a whole text. -/
def loads (s : String) : Option Json :=
  match read s.toList.length s.toList with
  | some (x, cs) => if skipSpace cs = [] then some x else none
  | none => none

/-! ### Strings -/

theorem digitOf_digitChar : ∀ d < 16, Numerals.hexadecimal.digitOf (Nat.digitChar d) = some d := by
  decide

theorem readHex4_hex4 {n : ℕ} (h : n < 0x10000) (cs : List Char) :
    readHex4 (hex4 n ++ cs) = some (n, cs) := by
  have hsum : n / 4096 % 16 * 4096 + n / 256 % 16 * 256 + n / 16 % 16 * 16 + n % 16 = n := by omega
  simp [hex4, readHex4, digitOf_digitChar, Nat.mod_lt, hsum]

/-- An escape is one code unit. -/
theorem readUnits_escape {u : ℕ} {cs cs' : List Char} (h : readEscape cs = some (u, cs')) (n : ℕ) :
    readUnits (n + 1) ('\\' :: cs) = (readUnits n cs').map fun p => (u :: p.1, p.2) := by
  rw [readUnits, if_neg (by decide), if_pos rfl, h]
  show (do
    let (us, cs) ← readUnits n cs'
    some (u :: us, cs)) = _
  cases readUnits n cs' with
  | none => rfl
  | some p => rfl

theorem readEscape_u {n : ℕ} (h : n < 0x10000) (cs : List Char) :
    readEscape ('u' :: (hex4 n ++ cs)) = some (n, cs) := by
  rw [readEscape, if_pos rfl, readHex4_hex4 h]

theorem toNat_lt (c : Char) : c.toNat < 0x110000 := by
  rcases c.valid with h | h
  · have hlt : c.toNat < 0xD800 := h
    omega
  · exact h.2

/-- No character is half of a surrogate pair. -/
theorem not_surrogate (c : Char) : ¬ (0xD800 ≤ c.toNat ∧ c.toNat < 0xE000) := by
  rcases c.valid with h | h
  · have hlt : c.toNat < 0xD800 := h
    omega
  · have hlt : 0xDFFF < c.toNat := h.1
    omega

/-- **A character is read as its code units**, whichever escape it is written with. -/
theorem readUnits_escapeChar (c : Char) (n : ℕ) (cs : List Char) :
    readUnits (n + (utf16 c).length) (escapeChar c ++ cs) =
      (readUnits n cs).map fun p => (utf16 c ++ p.1, p.2) := by
  have hshort : ∀ (m : ℕ) (e : Char), c.toNat = m → m < 0x10000 →
      (∀ r, readEscape (e :: r) = some (m, r)) →
      readUnits (n + (utf16 c).length) (['\\', e] ++ cs) =
        (readUnits n cs).map fun p => (utf16 c ++ p.1, p.2) := by
    intro m e hm hlt he
    have hutf : utf16 c = [m] := by rw [utf16, if_pos (by omega), hm]
    rw [hutf]
    exact readUnits_escape (he cs) n
  unfold escapeChar
  dsimp only
  split
  · next hm => exact hshort _ '"' hm (by omega) fun r => rfl
  split
  · next hm => exact hshort _ '\\' hm (by omega) fun r => rfl
  split
  · next hm => exact hshort _ 'n' hm (by omega) fun r => rfl
  split
  · next hm => exact hshort _ 'r' hm (by omega) fun r => rfl
  split
  · next hm => exact hshort _ 't' hm (by omega) fun r => rfl
  split
  · next hm => exact hshort _ 'f' hm (by omega) fun r => rfl
  split
  · next hm => exact hshort _ 'b' hm (by omega) fun r => rfl
  split
  · next hquote hback _ _ _ _ _ hprint =>
      -- a character that stands for itself
      have hutf : utf16 c = [c.toNat] := by rw [utf16, if_pos (by omega)]
      have hq : c ≠ '"' := by
        intro h
        exact hquote (by rw [h]; rfl)
      have hb : c ≠ '\\' := by
        intro h
        exact hback (by rw [h]; rfl)
      rw [hutf]
      show readUnits (n + 1) (c :: cs) = _
      rw [readUnits, if_neg hq, if_neg hb, if_neg (by omega), hutf]
      cases readUnits n cs with
      | none => rfl
      | some p => rfl
  split
  · next hbmp =>
      have hutf : utf16 c = [c.toNat] := by rw [utf16, if_pos hbmp]
      rw [hutf]
      exact readUnits_escape (readEscape_u hbmp cs) n
  · next hastral =>
      -- two escapes, two code units
      have hlt := toNat_lt c
      have hutf : utf16 c = [0xD800 + (c.toNat - 0x10000) / 0x400,
          0xDC00 + (c.toNat - 0x10000) % 0x400] := by rw [utf16, if_neg hastral]
      rw [hutf, List.append_assoc, List.append_assoc, List.append_assoc]
      refine (readUnits_escape (readEscape_u (by omega) _) (n + 1)).trans ?_
      refine (congrArg _ (readUnits_escape (readEscape_u (by omega) cs) n)).trans ?_
      cases readUnits n cs with
      | none => rfl
      | some p => rfl

theorem readUnits_escaped (s : List Char) (n : ℕ) (cs : List Char) :
    readUnits (n + (s.flatMap utf16).length) (s.flatMap escapeChar ++ cs) =
      (readUnits n cs).map fun p => (s.flatMap utf16 ++ p.1, p.2) := by
  induction s generalizing n with
  | nil => simp
  | cons c s ih =>
      rw [List.flatMap_cons, List.flatMap_cons, List.length_append, List.append_assoc,
        show n + ((utf16 c).length + (s.flatMap utf16).length) =
          (n + (s.flatMap utf16).length) + (utf16 c).length by omega,
        readUnits_escapeChar, ih, Option.map_map]
      simp [Function.comp_def]

/-- The code units of a character are that character again. -/
theorem ofUtf16_append (c : Char) (us : List ℕ) :
    ofUtf16 (utf16 c ++ us) = (ofUtf16 us).map (c :: ·) := by
  have hlt := toNat_lt c
  have hsur := not_surrogate c
  by_cases hbmp : c.toNat < 0x10000
  · rw [utf16, if_pos hbmp]
    cases us with
    | nil => simp [ofUtf16, hsur, Char.ofNat_toNat]
    | cons u us =>
        rw [List.cons_append, List.nil_append, ofUtf16, if_neg hsur, Char.ofNat_toNat]
  · have hpoint : 0x10000 + (0xD800 + (c.toNat - 0x10000) / 0x400 - 0xD800) * 0x400 +
        (0xDC00 + (c.toNat - 0x10000) % 0x400 - 0xDC00) = c.toNat := by omega
    rw [utf16, if_neg hbmp, List.cons_append, List.cons_append, List.nil_append, ofUtf16,
      if_pos (by omega), if_pos (by omega), hpoint, Char.ofNat_toNat]

theorem ofUtf16_utf16 (s : List Char) : ofUtf16 (s.flatMap utf16) = some s := by
  induction s with
  | nil => rfl
  | cons c s ih => rw [List.flatMap_cons, ofUtf16_append, ih, Option.map_some]

theorem length_utf16_le (c : Char) : (utf16 c).length ≤ (escapeChar c).length := by
  unfold utf16 escapeChar
  dsimp only
  split_ifs <;> simp [hex4]
  omega

theorem length_flatMap_utf16_le (s : List Char) :
    (s.flatMap utf16).length ≤ (s.flatMap escapeChar).length := by
  induction s with
  | nil => simp
  | cons c s ih =>
      have h := length_utf16_le c
      rw [List.flatMap_cons, List.flatMap_cons, List.length_append, List.length_append]
      omega

/-- **A string literal is read back.** -/
theorem readString_escaped (s : String) (cs : List Char) :
    readString (s.toList.flatMap escapeChar ++ '"' :: cs) = some (s, cs) := by
  have hlen := length_flatMap_utf16_le s.toList
  obtain ⟨n, hn⟩ : ∃ n, (s.toList.flatMap escapeChar ++ '"' :: cs).length + 1 =
      (n + 1) + (s.toList.flatMap utf16).length := by
    refine ⟨(s.toList.flatMap escapeChar ++ '"' :: cs).length
      - (s.toList.flatMap utf16).length, ?_⟩
    rw [List.length_append]
    omega
  have hunits : readUnits ((n + 1) + (s.toList.flatMap utf16).length)
      (s.toList.flatMap escapeChar ++ '"' :: cs) = some (s.toList.flatMap utf16, cs) := by
    rw [readUnits_escaped, readUnits, if_pos rfl, Option.map_some, List.append_nil]
  rw [readString, hn, hunits]
  simp [ofUtf16_utf16]

/-! ### Words -/

/-- Nothing in the rest belongs to a word in front of it. -/
def Stops (rest : List Char) : Prop := ∀ c ∈ rest.head?, isWordChar c = false

/-- **A text is read as a value**, with any fuel from `n` on, whatever follows it. -/
def Reads (n : ℕ) (t : List Char) (x : Json) : Prop :=
  ∀ m rest, n ≤ m → Stops rest → read m (t ++ rest) = some (x, rest)

theorem Reads.mono {n n' : ℕ} {t : List Char} {x : Json} (h : Reads n t x) (hn : n ≤ n') :
    Reads n' t x :=
  fun m rest hm hrest => h m rest (by omega) hrest

theorem takeWhile_word {w rest : List Char} (hw : ∀ c ∈ w, isWordChar c = true) (h : Stops rest) :
    (w ++ rest).takeWhile isWordChar = w ∧ (w ++ rest).dropWhile isWordChar = rest := by
  rw [List.takeWhile_append_of_pos hw, List.dropWhile_append_of_pos hw]
  cases rest with
  | nil => exact ⟨List.append_nil w, rfl⟩
  | cons c rest =>
      have hc : ¬ isWordChar c = true := by simpa using h c rfl
      rw [List.takeWhile_cons_of_neg hc, List.dropWhile_cons_of_neg hc]
      exact ⟨List.append_nil w, rfl⟩

/-- What a character of a word is not. -/
theorem isWordChar_ne {c d : Char} (hc : isWordChar c = true) (hd : isWordChar d = false) : c ≠ d := by
  intro h
  rw [h, hd] at hc
  cases hc

theorem not_isSpace {c : Char} (hc : isWordChar c = true) : ¬ isSpace c = true := by
  have h1 := isWordChar_ne hc (d := ' ') (by decide)
  have h2 := isWordChar_ne hc (d := '\t') (by decide)
  have h3 := isWordChar_ne hc (d := '\n') (by decide)
  have h4 := isWordChar_ne hc (d := '\r') (by decide)
  simp [isSpace, h1, h2, h3, h4]

theorem reads_word {w : List Char} {x : Json} (hne : w ≠ []) (hw : ∀ c ∈ w, isWordChar c = true)
    (hread : readWord w = some x) : Reads 1 w x := by
  intro m rest hm hrest
  obtain ⟨htake, hdrop⟩ := takeWhile_word hw hrest
  cases w with
  | nil => exact absurd rfl hne
  | cons c cs =>
      have hc := hw c List.mem_cons_self
      cases m with
      | zero => omega
      | succ m =>
          rw [List.cons_append] at htake hdrop
          rw [List.cons_append, read, skipSpace, List.dropWhile_cons_of_neg (not_isSpace hc)]
          dsimp only
          rw [if_neg (isWordChar_ne hc (by decide)), if_neg (isWordChar_ne hc (by decide)),
            if_neg (isWordChar_ne hc (by decide)), htake, hdrop, hread]
          rfl

theorem reads_null : Reads 1 "null".toList .null :=
  reads_word (by decide) (by simp [isWordChar, Char.isAlphanum, Char.isAlpha, Char.isLower]) rfl

theorem reads_true : Reads 1 "true".toList (.bool true) :=
  reads_word (by decide) (by simp [isWordChar, Char.isAlphanum, Char.isAlpha, Char.isLower]) rfl

theorem reads_false : Reads 1 "false".toList (.bool false) :=
  reads_word (by decide) (by simp [isWordChar, Char.isAlphanum, Char.isAlpha, Char.isLower]) rfl

/-! ### Numbers -/

theorem isWordChar_of_isDigit {c : Char} (h : c.isDigit = true) : isWordChar c = true := by
  simp [isWordChar, Char.isAlphanum, h]

/-- Only zero starts with a zero. -/
theorem isIntPart_toDigits (n : ℕ) : isIntPart (Nat.toDigits 10 n) = true := by
  have hhead : ∀ n, 0 < n → (Nat.toDigits 10 n).head? ≠ some '0' := by
    intro n
    induction n using Nat.strong_induction_on with
    | _ n ih =>
      intro hpos
      rcases Nat.lt_or_ge n 10 with hlt | hge
      · rw [Nat.toDigits_of_lt_base hlt]
        interval_cases n <;> decide
      · rw [Nat.toDigits_of_base_le (by omega) hge,
          List.head?_append_of_ne_nil _ Nat.toDigits_ne_nil]
        exact ih (n / 10) (by omega) (by omega)
  rcases Nat.eq_zero_or_pos n with hzero | hpos
  · subst hzero
    decide
  · simp [isIntPart, Nat.toDigits_ne_nil, hhead n hpos]

theorem takeWhile_toDigits (n : ℕ) :
    (Nat.toDigits 10 n).takeWhile Char.isDigit = Nat.toDigits 10 n ∧
      (Nat.toDigits 10 n).dropWhile Char.isDigit = [] := by
  have hdigits : ∀ c ∈ Nat.toDigits 10 n, c.isDigit = true := fun c hc =>
    Nat.isDigit_of_mem_toDigits (by omega) (by omega) hc
  constructor
  · exact List.takeWhile_eq_self_iff.mpr hdigits
  · exact List.dropWhile_eq_nil_iff.mpr hdigits

theorem head?_toDigits_ne (n : ℕ) : (Nat.toDigits 10 n).head? ≠ some '-' := by
  intro h
  have hdigit := Nat.isDigit_of_mem_toDigits (b := 10) (by omega) (by omega)
    (List.mem_of_mem_head? h)
  exact absurd hdigit (by decide)

theorem toList_ofNat (n : ℕ) : (toString (Int.ofNat n)).toList = Nat.toDigits 10 n := by
  show (toString n).toList = _
  rw [Nat.toString_eq_ofList_toDigits, String.toList_ofList]

theorem toList_negSucc (n : ℕ) :
    (toString (Int.negSucc n)).toList = '-' :: Nat.toDigits 10 (n + 1) := by
  show ("-" ++ toString (n + 1)).toList = _
  rw [Nat.toString_eq_ofList_toDigits, String.toList_append, String.toList_ofList]
  simp

/-- **An integer is read back.** -/
theorem readNumber_int (i : ℤ) : readNumber (toString i).toList = some (.int i) := by
  cases i with
  | ofNat n =>
      rw [toList_ofNat]
      simp [readNumber, head?_toDigits_ne, takeWhile_toDigits, isIntPart_toDigits]
  | negSucc n =>
      rw [toList_negSucc]
      simp [readNumber, takeWhile_toDigits, isIntPart_toDigits, Int.negSucc_eq]

theorem isWordChar_int {i : ℤ} {c : Char} (hc : c ∈ (toString i).toList) : isWordChar c = true := by
  have hdigit : ∀ n, c ∈ Nat.toDigits 10 n → isWordChar c = true := fun n h =>
    isWordChar_of_isDigit (Nat.isDigit_of_mem_toDigits (by omega) (by omega) h)
  cases i with
  | ofNat n =>
      rw [toList_ofNat] at hc
      exact hdigit n hc
  | negSucc n =>
      rw [toList_negSucc, List.mem_cons] at hc
      rcases hc with rfl | hc
      · decide
      · exact hdigit (n + 1) hc

/-- A word that is a number is none of the literal names. -/
theorem readWord_number {w : List Char} {x : Json} (h : readNumber w = some x) :
    readWord w = some x := by
  have hnull : w ≠ "null".toList := by
    intro hw
    rw [hw, show readNumber "null".toList = none by decide] at h
    cases h
  have htrue : w ≠ "true".toList := by
    intro hw
    rw [hw, show readNumber "true".toList = none by decide] at h
    cases h
  have hfalse : w ≠ "false".toList := by
    intro hw
    rw [hw, show readNumber "false".toList = none by decide] at h
    cases h
  rw [readWord, if_neg hnull, if_neg htrue, if_neg hfalse, h]

theorem reads_number {w : List Char} {x : Json} (hw : ∀ c ∈ w, isWordChar c = true)
    (h : readNumber w = some x) : Reads 1 w x := by
  refine reads_word ?_ hw (readWord_number h)
  intro hnil
  rw [hnil, show readNumber [] = none by decide] at h
  cases h

/-- The text of a finite float: a number with a fraction or an exponent. -/
def FloatText (r : String) : Prop :=
  (∀ c ∈ r.toList, isWordChar c = true) ∧ readNumber r.toList = some (.float r)

instance (r : String) : Decidable (FloatText r) := inferInstanceAs (Decidable (_ ∧ _))

mutual

/-- The texts of the floats in a value. -/
def floats : Json → List String
  | .float r => [r]
  | .arr xs => floatsItems xs
  | .obj kvs => floatsFields kvs
  | _ => []

def floatsItems : List Json → List String
  | [] => []
  | x :: xs => floats x ++ floatsItems xs

def floatsFields : List (String × Json) → List String
  | [] => []
  | (_, x) :: kvs => floats x ++ floatsFields kvs

end

/-- Every float of the value is finite. -/
def Written (x : Json) : Prop := ∀ r ∈ floats x, FloatText r

instance (x : Json) : Decidable (Written x) := inferInstanceAs (Decidable (∀ r ∈ floats x, _))

theorem written_arr {xs : List Json} : Written (.arr xs) ↔ ∀ x ∈ xs, Written x := by
  have hitems : ∀ r, r ∈ floatsItems xs ↔ ∃ x ∈ xs, r ∈ floats x := by
    intro r
    induction xs with
    | nil => simp [floatsItems]
    | cons x xs ih => simp [floatsItems, ih]
  constructor
  · exact fun h x hx r hr => h r ((hitems r).mpr ⟨x, hx, hr⟩)
  · intro h r hr
    obtain ⟨x, hx, hr⟩ := (hitems r).mp hr
    exact h x hx r hr

theorem written_obj {kvs : List (String × Json)} : Written (.obj kvs) ↔ ∀ kv ∈ kvs, Written kv.2 := by
  have hfields : ∀ r, r ∈ floatsFields kvs ↔ ∃ kv ∈ kvs, r ∈ floats kv.2 := by
    intro r
    induction kvs with
    | nil => simp [floatsFields]
    | cons kv kvs ih => simp [floatsFields, ih]
  constructor
  · exact fun h kv hkv r hr => h r ((hfields r).mpr ⟨kv, hkv, hr⟩)
  · intro h r hr
    obtain ⟨kv, hkv, hr⟩ := (hfields r).mp hr
    exact h kv hkv r hr

@[simp] theorem written_null : Written .null := by simp [Written, floats]

@[simp] theorem written_str (s : String) : Written (.str s) := by simp [Written, floats]

@[simp] theorem written_int (i : ℤ) : Written (.int i) := by simp [Written, floats]

/-! ### Containers -/

/-- The separator `dumps` puts behind a comma. -/
theorem isSpace_blank : ∀ c ∈ [' '], isSpace c = true := by
  simp [isSpace]

/-- Blanks in front of a value do not matter. -/
theorem read_blank {sep : List Char} (hsep : ∀ c ∈ sep, isSpace c = true) (n : ℕ) (cs : List Char) :
    read n (sep ++ cs) = read n cs := by
  cases n with
  | zero => rfl
  | succ n => rw [read, read, skipSpace, skipSpace, List.dropWhile_append_of_pos hsep]

theorem readField_blank {sep : List Char} (hsep : ∀ c ∈ sep, isSpace c = true) (n : ℕ)
    (cs : List Char) : readField n (sep ++ cs) = readField n cs := by
  cases n with
  | zero => rfl
  | succ n => rw [readField, readField, skipSpace, skipSpace, List.dropWhile_append_of_pos hsep]

/-- No value starts with a closing bracket. -/
theorem head?_of_read {n : ℕ} {cs : List Char} {p : Json × List Char} (h : read n cs = some p) :
    (skipSpace cs).head? ≠ some ']' := by
  intro hhead
  cases n with
  | zero => cases h
  | succ n =>
      cases hcs : skipSpace cs with
      | nil =>
          rw [hcs] at hhead
          cases hhead
      | cons c r =>
          rw [hcs] at hhead
          have hc : c = ']' := Option.some.inj hhead
          subst hc
          rw [read, hcs] at h
          simp [isWordChar, readWord, readNumber, isIntPart] at h

/-- What stands behind the first item of a container: the other items, each behind its separator, and
the closing character. -/
def tailText (sep : List Char) (close : Char) (ts : List (List Char)) : List Char :=
  ts.flatMap (fun t => ',' :: (sep ++ t)) ++ [close]

theorem tailText_cons (sep : List Char) (close : Char) (t : List Char) (ts : List (List Char)) :
    tailText sep close (t :: ts) = ',' :: (sep ++ (t ++ tailText sep close ts)) := by
  simp [tailText]

theorem stops_tailText (sep : List Char) {close : Char} (hclose : isWordChar close = false)
    (ts : List (List Char)) (rest : List Char) : Stops (tailText sep close ts ++ rest) := by
  cases ts with
  | nil =>
      intro c hc
      rwa [← Option.some.inj hc]
  | cons t ts =>
      intro c hc
      rw [tailText_cons] at hc
      rw [← Option.some.inj hc]
      decide

/-- **The items behind the first one are read in order.**  The fuel pays for each item and for the
largest of them. -/
theorem readItems_tailText {sep : List Char} (hsep : ∀ c ∈ sep, isSpace c = true) {n : ℕ}
    {ts : List (List Char)} {xs : List Json} (h : List.Forall₂ (Reads n) ts xs) {m : ℕ}
    (hm : n + ts.length + 1 ≤ m) (rest : List Char) :
    readItems m (tailText sep ']' ts ++ rest) = some (xs, rest) := by
  induction h generalizing m with
  | nil =>
      cases m with
      | zero => omega
      | succ m => rfl
  | @cons t x ts xs hx hxs ih =>
      rw [List.length_cons] at hm
      cases m with
      | zero => omega
      | succ m =>
          have hread := hx m (tailText sep ']' ts ++ rest) (by omega)
            (stops_tailText sep (by decide) ts rest)
          rw [tailText_cons, List.cons_append, readItems]
          show (do
            let (x, cs) ← read m (sep ++ (t ++ tailText sep ']' ts) ++ rest)
            let (xs, cs) ← readItems m cs
            some (x :: xs, cs)) = _
          rw [List.append_assoc, List.append_assoc, read_blank hsep, hread]
          show (do
            let (xs, cs) ← readItems m (tailText sep ']' ts ++ rest)
            some (x :: xs, cs)) = _
          rw [ih (by omega)]
          rfl

/-- **An array is read back**, however its items are spaced. -/
theorem reads_arr {sep : List Char} (hsep : ∀ c ∈ sep, isSpace c = true) {n : ℕ} {t : List Char}
    {x : Json} {ts : List (List Char)} {xs : List Json} (hx : Reads n t x)
    (hxs : List.Forall₂ (Reads n) ts xs) :
    Reads (n + ts.length + 2) ('[' :: (t ++ tailText sep ']' ts)) (.arr (x :: xs)) := by
  intro m rest hm hrest
  cases m with
  | zero => omega
  | succ m =>
      have hread := hx m (tailText sep ']' ts ++ rest) (by omega)
        (stops_tailText sep (by decide) ts rest)
      have hhead := head?_of_read hread
      rw [← List.append_assoc] at hhead hread
      rw [List.cons_append, read]
      show (if (skipSpace (t ++ tailText sep ']' ts ++ rest)).head? = some ']' then _ else do
        let (x, cs) ← read m (t ++ tailText sep ']' ts ++ rest)
        let (xs, cs) ← readItems m cs
        some (Json.arr (x :: xs), cs)) = _
      rw [if_neg hhead, hread]
      show (do
        let (xs, cs) ← readItems m (tailText sep ']' ts ++ rest)
        some (Json.arr (x :: xs), cs)) = _
      rw [readItems_tailText hsep hxs (by omega)]
      rfl

/-- A key, a colon and the text of a value. -/
def fieldText (k : String) (t : List Char) : List Char :=
  '"' :: (k.toList.flatMap escapeChar ++ '"' :: ':' :: ' ' :: t)

theorem readField_fieldText {n : ℕ} {t : List Char} {x : Json} (h : Reads n t x) (k : String)
    {m : ℕ} (hm : n + 1 ≤ m) {rest : List Char} (hrest : Stops rest) :
    readField m (fieldText k t ++ rest) = some ((k, x), rest) := by
  cases m with
  | zero => omega
  | succ m =>
      have hspace : skipSpace (fieldText k t ++ rest) = fieldText k t ++ rest := rfl
      have hstring : readString (k.toList.flatMap escapeChar ++ '"' :: ':' :: ' ' :: t ++ rest) =
          some (k, ':' :: ' ' :: (t ++ rest)) := by
        rw [List.append_assoc, List.cons_append, List.cons_append, List.cons_append]
        exact readString_escaped k _
      rw [readField, hspace]
      show (do
        let (k, cs) ← readString (k.toList.flatMap escapeChar ++ '"' :: ':' :: ' ' :: t ++ rest)
        if (skipSpace cs).head? = some ':' then do
          let (x, cs) ← read m (skipSpace cs).tail
          some ((k, x), cs)
        else none) = _
      rw [hstring]
      show (do
        let (x, cs) ← read m ([' '] ++ (t ++ rest))
        some ((k, x), cs)) = _
      rw [read_blank isSpace_blank, h m rest (by omega) hrest]
      rfl

/-- A field is read from a text, whatever follows it. -/
def ReadsField (n : ℕ) (t : List Char) (kv : String × Json) : Prop :=
  ∃ t', t = fieldText kv.1 t' ∧ Reads n t' kv.2

/-- A field starts with a quotation mark. -/
theorem head?_of_readField {n : ℕ} {cs : List Char} {p : (String × Json) × List Char}
    (h : readField n cs = some p) : (skipSpace cs).head? ≠ some '\x7d' := by
  intro hhead
  cases n with
  | zero => cases h
  | succ n =>
      cases hcs : skipSpace cs with
      | nil =>
          rw [hcs] at hhead
          cases hhead
      | cons c r =>
          rw [hcs] at hhead
          have hc : c = '\x7d' := Option.some.inj hhead
          subst hc
          rw [readField, hcs] at h
          simp at h

/-- One field, and those behind it. -/
theorem readFields_of_field {n : ℕ} {cs cs' r : List Char} {kv : String × Json}
    {kvs : List (String × Json)} (hfield : readField n cs = some (kv, cs'))
    (hfields : readFields n cs' = some (kvs, r)) :
    readFields (n + 1) (',' :: cs) = some (kv :: kvs, r) := by
  rw [readFields]
  show (do
    let (kv, cs) ← readField n cs
    let (kvs, cs) ← readFields n cs
    some (kv :: kvs, cs)) = _
  rw [hfield]
  show (do
    let (kvs, cs) ← readFields n cs'
    some (kv :: kvs, cs)) = _
  rw [hfields]
  rfl

/-- An object, from its first field and those behind it. -/
theorem read_of_fields {n : ℕ} {cs cs' r : List Char} {kv : String × Json}
    {kvs : List (String × Json)} (hfield : readField n cs = some (kv, cs'))
    (hfields : readFields n cs' = some (kvs, r)) :
    read (n + 1) ('\x7b' :: cs) = some (.obj (kv :: kvs), r) := by
  rw [read]
  show (if (skipSpace cs).head? = some '\x7d' then _ else do
    let (kv, cs) ← readField n cs
    let (kvs, cs) ← readFields n cs
    some (Json.obj (kv :: kvs), cs)) = _
  rw [if_neg (head?_of_readField hfield), hfield]
  show (do
    let (kvs, cs) ← readFields n cs'
    some (Json.obj (kv :: kvs), cs)) = _
  rw [hfields]
  rfl

/-- **The fields behind the first one are read in order.** -/
theorem readFields_tailText {sep : List Char} (hsep : ∀ c ∈ sep, isSpace c = true) {n : ℕ}
    {ts : List (List Char)} {kvs : List (String × Json)} (h : List.Forall₂ (ReadsField n) ts kvs)
    {m : ℕ} (hm : n + ts.length + 2 ≤ m) (rest : List Char) :
    readFields m (tailText sep '\x7d' ts ++ rest) = some (kvs, rest) := by
  induction h generalizing m with
  | nil =>
      cases m with
      | zero => omega
      | succ m => rfl
  | @cons t kv ts kvs hkv hkvs ih =>
      obtain ⟨t', rfl, hread⟩ := hkv
      rw [List.length_cons] at hm
      cases m with
      | zero => omega
      | succ m =>
          have hfield := readField_fieldText hread kv.1 (show n + 1 ≤ m by omega)
            (stops_tailText sep (show isWordChar '\x7d' = false by decide) ts rest)
          rw [← readField_blank hsep] at hfield
          rw [tailText_cons, List.cons_append, List.append_assoc, List.append_assoc]
          exact readFields_of_field hfield (ih (by omega))

theorem reads_obj {sep : List Char} (hsep : ∀ c ∈ sep, isSpace c = true) {n : ℕ} {t : List Char}
    {kv : String × Json} {ts : List (List Char)} {kvs : List (String × Json)}
    (hkv : ReadsField n t kv) (hkvs : List.Forall₂ (ReadsField n) ts kvs) :
    Reads (n + ts.length + 3) ('\x7b' :: (t ++ tailText sep '\x7d' ts)) (.obj (kv :: kvs)) := by
  intro m rest hm hrest
  obtain ⟨t', rfl, hread⟩ := hkv
  cases m with
  | zero => omega
  | succ m =>
      have hfield := readField_fieldText hread kv.1 (show n + 1 ≤ m by omega)
        (stops_tailText sep (show isWordChar '\x7d' = false by decide) ts rest)
      rw [List.cons_append, List.append_assoc]
      exact read_of_fields hfield (readFields_tailText hsep hkvs (by omega) rest)

/-! ### The texts of `dumps` -/

theorem dumpItems_eq (xs : List Json) : dumpItems xs = xs.map dumps := by
  induction xs with
  | nil => rfl
  | cons x xs ih => rw [dumpItems, ih, List.map_cons]

theorem dumpFields_eq (kvs : List (String × Json)) :
    dumpFields kvs = kvs.map fun kv => quote kv.1 ++ ": " ++ dumps kv.2 := by
  induction kvs with
  | nil => rfl
  | cons kv kvs ih => rw [dumpFields, ih, List.map_cons]

theorem toList_quote (s : String) :
    (quote s).toList = '"' :: (s.toList.flatMap escapeChar ++ ['"']) := by
  simp [quote, String.toList_append, String.toList_ofList]

/-- A joined text is its first item and what `tailText` puts behind it. -/
theorem toList_join (sep : List Char) (close : Char) (t : String) (ts : List String) :
    (String.intercalate (String.ofList (',' :: sep)) (t :: ts)).toList ++ [close] =
      t.toList ++ tailText sep close (ts.map String.toList) := by
  induction ts generalizing t with
  | nil => simp [tailText, String.intercalate_singleton]
  | cons u ts ih =>
      rw [String.intercalate_cons_cons, String.toList_append, String.toList_append,
        String.toList_ofList, List.append_assoc, List.append_assoc, ih, List.map_cons,
        tailText_cons]
      simp

theorem toList_dumps_arr (x : Json) (xs : List Json) :
    (dumps (.arr (x :: xs))).toList =
      '[' :: ((dumps x).toList ++ tailText [' '] ']' (xs.map fun x => (dumps x).toList)) := by
  have hjoin := toList_join [' '] ']' (dumps x) (xs.map dumps)
  rw [List.map_map] at hjoin
  rw [dumps, dumpItems_eq, List.map_cons, String.toList_append, String.toList_append,
    List.append_assoc, show "[".toList = ['['] by decide, show "]".toList = [']'] by decide]
  exact congrArg (['['] ++ ·) hjoin

theorem toList_dumps_obj (kv : String × Json) (kvs : List (String × Json)) :
    (dumps (.obj (kv :: kvs))).toList =
      '\x7b' :: (fieldText kv.1 (dumps kv.2).toList ++
        tailText [' '] '\x7d' (kvs.map fun kv => fieldText kv.1 (dumps kv.2).toList)) := by
  have hfield : ∀ kv : String × Json,
      (quote kv.1 ++ ": " ++ dumps kv.2).toList = fieldText kv.1 (dumps kv.2).toList := by
    intro kv
    simp [fieldText, toList_quote, String.toList_append]
  have hjoin := toList_join [' '] '\x7d' (quote kv.1 ++ ": " ++ dumps kv.2)
    (kvs.map fun kv => quote kv.1 ++ ": " ++ dumps kv.2)
  rw [List.map_map, hfield,
    show String.toList ∘ (fun kv : String × Json => quote kv.1 ++ ": " ++ dumps kv.2) =
      fun kv => fieldText kv.1 (dumps kv.2).toList from funext hfield] at hjoin
  rw [dumps, dumpFields_eq, List.map_cons, String.toList_append, String.toList_append,
    List.append_assoc, show "\x7b".toList = ['\x7b'] by decide,
    show "\x7d".toList = ['\x7d'] by decide]
  exact congrArg (['\x7b'] ++ ·) hjoin

/-! ### What is written is read back -/

theorem length_tailText_le {sep : List Char} {close : Char} {ts : List (List Char)} :
    ts.length + 1 ≤ (tailText sep close ts).length ∧
      ∀ t ∈ ts, t.length + ts.length + 1 ≤ (tailText sep close ts).length := by
  induction ts with
  | nil => simp [tailText]
  | cons u ts ih =>
      obtain ⟨hlen, hts⟩ := ih
      simp only [tailText_cons, List.length_cons, List.length_append]
      refine ⟨by omega, fun t ht => ?_⟩
      rcases List.mem_cons.mp ht with rfl | ht
      · omega
      · have h := hts t ht
        omega

theorem length_fieldText (k : String) (t : List Char) :
    (fieldText k t).length = (k.toList.flatMap escapeChar).length + t.length + 4 := by
  simp only [fieldText, List.length_cons, List.length_append]
  omega

/-- An array is read with its own length as fuel when its items are. -/
theorem reads_array {sep : List Char} (hsep : ∀ c ∈ sep, isSpace c = true) {t : List Char} {x : Json}
    {ts : List (List Char)} {xs : List Json} (hx : Reads t.length t x)
    (hxs : List.Forall₂ (fun t x => Reads t.length t x) ts xs) :
    Reads ('[' :: (t ++ tailText sep ']' ts)).length ('[' :: (t ++ tailText sep ']' ts))
      (.arr (x :: xs)) := by
  obtain ⟨hlen, hts⟩ := @length_tailText_le sep ']' ts
  -- the fuel of the largest item
  have hitems : List.Forall₂
      (Reads (t.length + (tailText sep ']' ts).length - ts.length - 1)) ts xs := by
    rw [List.forall₂_iff_zip] at hxs ⊢
    refine ⟨hxs.1, fun {u y} huy => (hxs.2 huy).mono ?_⟩
    have hu := hts u (List.of_mem_zip huy).1
    omega
  refine (reads_arr hsep (hx.mono (by omega)) hitems).mono ?_
  rw [List.length_cons, List.length_append]
  omega

theorem reads_dumps_arr {xs : List Json}
    (h : ∀ x ∈ xs, Reads (dumps x).toList.length (dumps x).toList x) :
    Reads (dumps (.arr xs)).toList.length (dumps (.arr xs)).toList (.arr xs) := by
  cases xs with
  | nil =>
      intro m rest hm hrest
      cases m with
      | zero => exact absurd hm (by decide)
      | succ m => rfl
  | cons x xs =>
      rw [toList_dumps_arr]
      refine reads_array isSpace_blank (h x List.mem_cons_self) ?_
      rw [List.forall₂_map_left_iff, List.forall₂_same]
      exact fun y hy => h y (List.mem_cons_of_mem _ hy)

theorem reads_dumps_obj {kvs : List (String × Json)}
    (h : ∀ kv ∈ kvs, Reads (dumps kv.2).toList.length (dumps kv.2).toList kv.2) :
    Reads (dumps (.obj kvs)).toList.length (dumps (.obj kvs)).toList (.obj kvs) := by
  cases kvs with
  | nil =>
      intro m rest hm hrest
      cases m with
      | zero => exact absurd hm (by decide)
      | succ m => rfl
  | cons kv kvs =>
      obtain ⟨hlen, hts⟩ := @length_tailText_le [' '] '\x7d'
        (kvs.map fun kv => fieldText kv.1 (dumps kv.2).toList)
      rw [toList_dumps_obj]
      rw [List.length_map] at hlen hts
      have hkv := h kv List.mem_cons_self
      have hfield := length_fieldText kv.1 (dumps kv.2).toList
      have hkvs : ∀ p ∈ kvs, (dumps p.2).toList.length + kvs.length + 1 ≤
          (tailText [' '] '\x7d' (kvs.map fun kv => fieldText kv.1 (dumps kv.2).toList)).length := by
        intro p hp
        have hp' := hts _ (List.mem_map_of_mem hp)
        rw [length_fieldText] at hp'
        omega
      generalize hN :
        (tailText [' '] '\x7d' (kvs.map fun kv => fieldText kv.1 (dumps kv.2).toList)).length = N at *
      refine (reads_obj isSpace_blank (n := (dumps kv.2).toList.length + N - kvs.length - 1)
        ⟨_, rfl, hkv.mono (by omega)⟩ ?_).mono ?_
      · rw [List.forall₂_map_left_iff, List.forall₂_same]
        intro p hp
        have hlen' := hkvs p hp
        exact ⟨_, rfl, (h p (List.mem_cons_of_mem _ hp)).mono (by omega)⟩
      · rw [List.length_map, List.length_cons, List.length_append, hN]
        omega

mutual

/-- **What is written is read back**, whatever follows it. -/
theorem reads_dumps : ∀ x : Json, Written x →
    Reads (dumps x).toList.length (dumps x).toList x
  | .null, _ => reads_null.mono (by simp [dumps])
  | .bool true, _ => reads_true.mono (by simp [dumps])
  | .bool false, _ => reads_false.mono (by simp [dumps])
  | .int i, _ => by
      have h := reads_number (fun c hc => isWordChar_int hc) (readNumber_int i)
      refine h.mono (List.length_pos_iff.mpr fun hnil => ?_)
      have hnumber := readNumber_int i
      rw [show (toString i).toList = [] from hnil] at hnumber
      exact absurd hnumber (by simp [readNumber, isIntPart])
  | .float r, h => by
      obtain ⟨hword, hnumber⟩ := h r List.mem_cons_self
      refine (reads_number hword hnumber).mono (List.length_pos_iff.mpr fun hnil => ?_)
      rw [show r.toList = [] from hnil] at hnumber
      exact absurd hnumber (by simp [readNumber, isIntPart])
  | .str s, _ => by
      intro m rest hm hrest
      rw [dumps, toList_quote] at hm ⊢
      cases m with
      | zero => simp at hm
      | succ m =>
          rw [List.cons_append, List.append_assoc, read]
          show (readString (s.toList.flatMap escapeChar ++ '"' :: rest)).map _ = _
          rw [readString_escaped]
          rfl
  | .arr xs, h => reads_dumps_arr (reads_dumpItems xs h)
  | .obj kvs, h => reads_dumps_obj (reads_dumpFields kvs h)

theorem reads_dumpItems : ∀ xs : List Json, (∀ r ∈ floatsItems xs, FloatText r) →
    ∀ x ∈ xs, Reads (dumps x).toList.length (dumps x).toList x
  | [], _ => by simp
  | x :: xs, h => by
      intro y hy
      rcases List.mem_cons.mp hy with hyx | hy
      · rw [hyx]
        exact reads_dumps x fun r hr => h r (List.mem_append_left _ hr)
      · exact reads_dumpItems xs (fun r hr => h r (List.mem_append_right _ hr)) y hy

theorem reads_dumpFields : ∀ kvs : List (String × Json), (∀ r ∈ floatsFields kvs, FloatText r) →
    ∀ kv ∈ kvs, Reads (dumps kv.2).toList.length (dumps kv.2).toList kv.2
  | [], _ => by simp
  | (k, x) :: kvs, h => by
      intro p hp
      rcases List.mem_cons.mp hp with hpx | hp
      · rw [hpx]
        exact reads_dumps x fun r hr => h r (List.mem_append_left _ hr)
      · exact reads_dumpFields kvs (fun r hr => h r (List.mem_append_right _ hr)) p hp

end

/-- A text that is read with its own length as fuel. -/
theorem loads_of_reads {s : String} {x : Json} {n : ℕ} (h : Reads n s.toList x)
    (hn : n ≤ s.toList.length) : loads s = some x := by
  have hread := h s.toList.length [] hn (by simp [Stops])
  rw [List.append_nil] at hread
  rw [loads, hread]
  rfl

/-- **`json.loads` undoes `json.dumps`.** -/
theorem loads_dumps {x : Json} (h : Written x) : loads (dumps x) = some x :=
  loads_of_reads (reads_dumps x h) (Nat.le_refl _)

/-- Different values have different texts. -/
theorem dumps_inj {x y : Json} (hx : Written x) (hy : Written y) (h : dumps x = dumps y) : x = y := by
  have hload := loads_dumps hx
  rw [h, loads_dumps hy] at hload
  exact (Option.some.inj hload).symm

/-! ### One line of ASCII -/

/-- A printable ASCII character. -/
def Printable (c : Char) : Prop := 0x20 ≤ c.toNat ∧ c.toNat ≤ 0x7E

instance (c : Char) : Decidable (Printable c) := inferInstanceAs (Decidable (_ ∧ _))

theorem printable_of_isWordChar {c : Char} (h : isWordChar c = true) : Printable c := by
  simp only [isWordChar, Char.isAlphanum, Char.isAlpha, Char.isUpper, Char.isLower, Char.isDigit,
    Bool.or_eq_true, Bool.and_eq_true, decide_eq_true_eq, beq_iff_eq, UInt32.le_iff_toNat_le,
    ge_iff_le] at h
  change (((((65 ≤ c.toNat ∧ c.toNat ≤ 90) ∨ (97 ≤ c.toNat ∧ c.toNat ≤ 122)) ∨
    (48 ≤ c.toNat ∧ c.toNat ≤ 57)) ∨ c = '+') ∨ c = '-') ∨ c = '.' at h
  rcases h with ((((h | h) | h) | rfl) | rfl) | rfl
  · exact ⟨by omega, by omega⟩
  · exact ⟨by omega, by omega⟩
  · exact ⟨by omega, by omega⟩
  · decide
  · decide
  · decide

theorem printable_hex4 {n : ℕ} {c : Char} (h : c ∈ hex4 n) : Printable c := by
  have hdigit : ∀ d < 16, Printable (Nat.digitChar d) := by decide
  simp only [hex4, List.map_cons, List.map_nil, List.mem_cons, List.not_mem_nil, or_false] at h
  rcases h with rfl | rfl | rfl | rfl
  · exact hdigit _ (Nat.mod_lt _ (by omega))
  · exact hdigit _ (Nat.mod_lt _ (by omega))
  · exact hdigit _ (Nat.mod_lt _ (by omega))
  · exact hdigit _ (Nat.mod_lt _ (by omega))

theorem printable_escapeChar {c d : Char} (h : d ∈ escapeChar c) : Printable d := by
  have hu : ∀ d ∈ "\\u".toList, Printable d := by simp [Printable]
  unfold escapeChar at h
  dsimp only at h
  split at h
  · exact (by simp [Printable] : ∀ d ∈ "\\\"".toList, Printable d) d h
  split at h
  · exact (by simp [Printable] : ∀ d ∈ "\\\\".toList, Printable d) d h
  split at h
  · exact (by simp [Printable] : ∀ d ∈ "\\n".toList, Printable d) d h
  split at h
  · exact (by simp [Printable] : ∀ d ∈ "\\r".toList, Printable d) d h
  split at h
  · exact (by simp [Printable] : ∀ d ∈ "\\t".toList, Printable d) d h
  split at h
  · exact (by simp [Printable] : ∀ d ∈ "\\f".toList, Printable d) d h
  split at h
  · exact (by simp [Printable] : ∀ d ∈ "\\b".toList, Printable d) d h
  split at h
  · next hprint =>
      rw [List.mem_singleton.mp h]
      exact hprint
  split at h
  · rcases List.mem_append.mp h with h | h
    · exact hu d h
    · exact printable_hex4 h
  · rcases List.mem_append.mp h with h | h
    · rcases List.mem_append.mp h with h | h
      · rcases List.mem_append.mp h with h | h
        · exact hu d h
        · exact printable_hex4 h
      · exact hu d h
    · exact printable_hex4 h

theorem printable_quote {s : String} : ∀ c ∈ (quote s).toList, Printable c := by
  intro c hc
  rw [toList_quote, List.mem_cons, List.mem_append, List.mem_flatMap, List.mem_singleton] at hc
  rcases hc with rfl | ⟨d, -, hc⟩ | rfl
  · decide
  · exact printable_escapeChar hc
  · decide

theorem printable_join {sep : String} (hsep : ∀ c ∈ sep.toList, Printable c) {ts : List String}
    (h : ∀ t ∈ ts, ∀ c ∈ t.toList, Printable c) :
    ∀ c ∈ (sep.intercalate ts).toList, Printable c := by
  induction ts with
  | nil => simp
  | cons t ts ih =>
      have ht := h t List.mem_cons_self
      have hts := ih fun t ht => h t (List.mem_cons_of_mem _ ht)
      by_cases hnil : ts = []
      · subst hnil
        simpa using ht
      · intro c hc
        rw [String.intercalate_cons_of_ne_nil hnil, String.toList_append, String.toList_append,
          List.mem_append, List.mem_append] at hc
        rcases hc with (hc | hc) | hc
        · exact ht c hc
        · exact hsep c hc
        · exact hts c hc

mutual

/-- **A text of `dumps` is one line of printable ASCII.** -/
theorem printable_dumps : ∀ x : Json, Written x → ∀ c ∈ (dumps x).toList, Printable c
  | .null, _ => by simp [dumps, Printable]
  | .bool true, _ => by simp [dumps, Printable]
  | .bool false, _ => by simp [dumps, Printable]
  | .int _, _ => fun _ hc => printable_of_isWordChar (isWordChar_int hc)
  | .float r, h => fun c hc => printable_of_isWordChar ((h r List.mem_cons_self).1 c hc)
  | .str _, _ => printable_quote
  | .arr xs, h => by
      intro c hc
      rw [dumps, String.toList_append, String.toList_append, List.mem_append, List.mem_append] at hc
      rcases hc with (hc | hc) | hc
      · exact (by simp [Printable] : ∀ c ∈ "[".toList, Printable c) c hc
      · exact printable_join (by simp [Printable]) (printable_dumpItems xs h) c hc
      · exact (by simp [Printable] : ∀ c ∈ "]".toList, Printable c) c hc
  | .obj kvs, h => by
      intro c hc
      rw [dumps, String.toList_append, String.toList_append, List.mem_append, List.mem_append] at hc
      rcases hc with (hc | hc) | hc
      · exact (by simp [Printable] : ∀ c ∈ "\x7b".toList, Printable c) c hc
      · exact printable_join (by simp [Printable]) (printable_dumpFields kvs h) c hc
      · exact (by simp [Printable] : ∀ c ∈ "\x7d".toList, Printable c) c hc

theorem printable_dumpItems : ∀ xs : List Json, (∀ r ∈ floatsItems xs, FloatText r) →
    ∀ t ∈ dumpItems xs, ∀ c ∈ t.toList, Printable c
  | [], _ => by simp [dumpItems]
  | x :: xs, h => by
      intro t ht
      rcases List.mem_cons.mp ht with htx | ht
      · rw [htx]
        exact printable_dumps x fun r hr => h r (List.mem_append_left _ hr)
      · exact printable_dumpItems xs (fun r hr => h r (List.mem_append_right _ hr)) t ht

theorem printable_dumpFields : ∀ kvs : List (String × Json),
    (∀ r ∈ floatsFields kvs, FloatText r) → ∀ t ∈ dumpFields kvs, ∀ c ∈ t.toList, Printable c
  | [], _ => by simp [dumpFields]
  | (k, x) :: kvs, h => by
      intro t ht
      rcases List.mem_cons.mp ht with htx | ht
      · have hx := printable_dumps x fun r hr => h r (List.mem_append_left _ hr)
        intro c hc
        rw [htx, String.toList_append, String.toList_append, List.mem_append, List.mem_append] at hc
        rcases hc with (hc | hc) | hc
        · exact printable_quote c hc
        · exact (by simp [Printable] : ∀ c ∈ ": ".toList, Printable c) c hc
        · exact hx c hc
      · exact printable_dumpFields kvs (fun r hr => h r (List.mem_append_right _ hr)) t ht

end

end Json

end PgSnowflakeCdc
