import PgSnowflakeCdc.PgOutput.RoundTrip

/-!
# The tuples the parser accepts

The entries the column loop of `_read_tuple` gets past, as a grammar, and what sets it apart from the
grammar of the protocol: an entry of an unknown kind is stepped over, and a value may be cut short at
the end of the payload, which slicing past the end does not notice.

* `readColumns_eq_ok_iff` — the entries the column loop accepts;
* `readTuple_eq_ok_iff` — the tuples `_read_tuple` accepts, and where it stops reading;
* `tuple_inj` — a tuple is read in one way only.
-/

namespace PgSnowflakeCdc

open OrderedDict BigEndian PgOutputParser

/-! ### Entries -/

inductive ValueKind where
  | text : ValueKind
  | binary : ValueKind
deriving DecidableEq

def ValueKind.tag : ValueKind → Char
  | .text => 't'
  | .binary => 'b'

/-- An entry of a tuple as the column loop meets it: of a value its declared length and the bytes that
are there. -/
inductive Entry where
  | null : Entry
  | unchanged : Entry
  | value (kind : ValueKind) (len : ℕ) (bs : Bytes) : Entry
  | unknown (kind : UInt8) : Entry
deriving DecidableEq

namespace Entry

def encode : Entry → Bytes
  | .null => [ascii 'n']
  | .unchanged => [ascii 'u']
  | .value kind len bs => ascii kind.tag :: (beBytes 4 len ++ bs)
  | .unknown kind => [kind]

/-- The value filed for an entry, if one is. -/
def filed : Entry → Option PyVal
  | .null => some .none
  | .unchanged => some .none
  | .value .text _ bs => some (.str (utf8DecodeReplace bs))
  | .value .binary _ bs => some (.bytes bs)
  | .unknown _ => none

/-- How far the loop advances. -/
def width : Entry → ℕ
  | .value _ len _ => 1 + 4 + len
  | _ => 1

/-- An entry of the protocol: of a known kind, its declared length present. -/
def WellFormed : Entry → Prop
  | .value _ len bs => len < 2 ^ 32 ∧ bs.length = len
  | .unknown _ => False
  | _ => True

instance : DecidablePred WellFormed
  | .null => isTrue trivial
  | .unchanged => isTrue trivial
  | .value _ _ _ => inferInstanceAs (Decidable (_ ∧ _))
  | .unknown _ => isFalse not_false

/-- An entry the loop accepts in front of `rest`: a value cut short is the end of the payload. -/
def AcceptedBefore (rest : Bytes) : Entry → Prop
  | .value _ len bs => len < 2 ^ 32 ∧ (bs.length = len ∨ bs.length < len ∧ rest = [])
  | .unknown kind => chr kind ≠ 'n' ∧ chr kind ≠ 'u' ∧ chr kind ≠ 't' ∧ chr kind ≠ 'b'
  | _ => True

instance (rest : Bytes) : DecidablePred (AcceptedBefore rest)
  | .null => isTrue trivial
  | .unchanged => isTrue trivial
  | .value _ _ _ => inferInstanceAs (Decidable (_ ∧ _))
  | .unknown _ => inferInstanceAs (Decidable (_ ∧ _))

theorem WellFormed.acceptedBefore {e : Entry} (h : e.WellFormed) (rest : Bytes) :
    e.AcceptedBefore rest := by
  cases e with
  | value kind len bs => exact ⟨h.1, Or.inl h.2⟩
  | unknown kind => exact h.elim
  | null => exact trivial
  | unchanged => exact trivial

end Entry

/-! ### Reads that succeed -/

/-- `chr` tells bytes apart. -/
theorem eq_ascii_of_chr {b : UInt8} {c : Char} (h : chr b = c) : b = ascii c := by
  have hvalid : b.toNat.isValidChar := Or.inl (by have := UInt8.toNat_lt b; omega)
  have hnat : c.toNat = b.toNat := by
    rw [← h, chr, Char.ofNat, dif_pos hvalid]
    exact Char.toNat_ofNatAux hvalid
  rw [ascii, hnat, UInt8.ofNat_toNat]

/-- A computation that returns has returned at each of its steps. -/
theorem bind_eq_ok {ε α β : Type} {x : Except ε α} {f : α → Except ε β} {b : β} :
    x >>= f = .ok b ↔ ∃ a, x = .ok a ∧ f a = .ok b := by
  cases x with
  | error e => exact iff_of_false nofun nofun
  | ok a =>
    constructor
    · exact fun h => ⟨a, rfl, h⟩
    · rintro ⟨a', ha, h⟩
      cases ha
      exact h

section Reads

variable {data : Bytes} {off : ℕ}

theorem byteAt_eq_ok_iff {b : UInt8} :
    byteAt data off = .ok b ↔ ∃ tail, data.drop off = b :: tail := by
  constructor
  · intro h
    rw [byteAt] at h
    cases hb : data[off]? with
    | none =>
      rw [hb] at h
      cases h
    | some b' =>
      rw [hb] at h
      cases h
      obtain ⟨hlt, hget⟩ := List.getElem?_eq_some_iff.mp hb
      exact ⟨data.drop (off + 1), by rw [← hget]; exact List.drop_eq_getElem_cons hlt⟩
  · rintro ⟨tail, h⟩
    exact byteAt_at h

theorem unpack_eq_ok_iff {n v : ℕ} (hn : 0 < n) :
    unpack n data off = .ok v ↔ ∃ tail, data.drop off = beBytes n v ++ tail ∧ v < 256 ^ n := by
  constructor
  · intro h
    rw [unpack] at h
    split at h
    · next hroom =>
      have hlen : ((data.drop off).take n).length = n := by
        rw [List.length_take, List.length_drop]
        omega
      cases h
      refine ⟨(data.drop off).drop n, ?_, ?_⟩
      · have hexact := beBytes_beNat ((data.drop off).take n)
        rw [hlen] at hexact
        rw [hexact, List.take_append_drop]
      · have hlt := beNat_lt ((data.drop off).take n)
        rwa [hlen] at hlt
    · cases h
  · rintro ⟨tail, h, hv⟩
    exact unpack_at h hv hn

end Reads

/-! ### The column loop -/

/-- File an entry under its column's name. -/
def Entry.file (e : Entry) (name : String) (row : Row) : Row :=
  match e.filed with
  | some v => row.set name v
  | none => row

/-- File entries, the first of them being column `i`. -/
def fileEntries (relation : RelationInfo) : ℕ → List Entry → Row → Row
  | _, [], row => row
  | i, e :: es, row => fileEntries relation (i + 1) es (e.file (columnName relation i) row)

/-- Entries the loop accepts in front of `tail`. -/
def AcceptedEntries (tail : Bytes) : List Entry → Prop
  | [] => True
  | e :: es => e.AcceptedBefore (es.flatMap Entry.encode ++ tail) ∧ AcceptedEntries tail es

instance decidableAcceptedEntries (tail : Bytes) : DecidablePred (AcceptedEntries tail)
  | [] => isTrue trivial
  | _ :: es =>
    haveI := decidableAcceptedEntries tail es
    inferInstanceAs (Decidable (_ ∧ _))

theorem acceptedEntries_of_wellFormed (tail : Bytes) {es : List Entry}
    (h : ∀ e ∈ es, e.WellFormed) : AcceptedEntries tail es := by
  induction es with
  | nil => exact trivial
  | cons e es ih =>
    exact ⟨(h e List.mem_cons_self).acceptedBefore _,
      ih fun e' he' => h e' (List.mem_cons_of_mem e he')⟩

section Columns

variable {data : Bytes} (relation : RelationInfo)

/-- Slicing at a value finds the bytes that are there. -/
theorem take_value {off len : ℕ} {bs rest : Bytes} (h : data.drop off = bs ++ rest)
    (hlen : bs.length = len ∨ bs.length < len ∧ rest = []) : (data.drop off).take len = bs := by
  rw [h]
  rcases hlen with rfl | ⟨hshort, rfl⟩
  · exact List.take_left
  · rw [List.append_nil]
    exact List.take_of_length_le hshort.le

/-- Behind a value, complete or cut short. -/
theorem drop_past_value {off len : ℕ} {bs rest : Bytes} (h : data.drop off = bs ++ rest)
    (hlen : bs.length = len ∨ bs.length < len ∧ rest = []) : data.drop (off + len) = rest := by
  rw [← List.drop_drop, h]
  rcases hlen with rfl | ⟨hshort, rfl⟩
  · exact List.drop_left
  · rw [List.append_nil]
    exact List.drop_of_length_le hshort.le

theorem drop_past_entry {off : ℕ} {e : Entry} {rest : Bytes}
    (h : data.drop off = e.encode ++ rest) (he : e.AcceptedBefore rest) :
    data.drop (off + e.width) = rest := by
  cases e with
  | null => exact drop_past_byte h
  | unchanged => exact drop_past_byte h
  | unknown kind => exact drop_past_byte h
  | value kind len bs =>
    rw [Entry.encode, List.cons_append, List.append_assoc] at h
    have hvalue := drop_past_value (drop_past_word (drop_past_byte h)) he.2
    rw [Entry.width, ← hvalue]
    congr 1
    omega

/-- One turn of the column loop over an accepted entry. -/
theorem readColumns_entry {off : ℕ} {e : Entry} {rest : Bytes}
    (h : data.drop off = e.encode ++ rest) (he : e.AcceptedBefore rest) (count i : ℕ) (row : Row) :
    readColumns data relation (count + 1) i off row =
      readColumns data relation count (i + 1) (off + e.width)
        (e.file (columnName relation i) row) := by
  cases e with
  | null =>
    have hbyte := byteAt_at (b := ascii 'n') h
    rw [readColumns, hbyte]
    rfl
  | unchanged =>
    have hbyte := byteAt_at (b := ascii 'u') h
    rw [readColumns, hbyte]
    rfl
  | unknown kind =>
    obtain ⟨hn, hu, ht, hb⟩ := he
    have hbyte := byteAt_at (b := kind) h
    simp only [readColumns, hbyte, bind, Except.bind, if_neg hn, if_neg hu, ht, hb, or_self,
      if_false]
    rfl
  | value kind len bs =>
    rw [Entry.encode, List.cons_append, List.append_assoc] at h
    have hbyte := byteAt_at h
    have hword := unpack_at (drop_past_byte h) he.1 (by decide)
    have hraw := take_value (drop_past_word (drop_past_byte h)) he.2
    have hwidth : off + (Entry.value kind len bs).width = off + 1 + 4 + len := by
      rw [Entry.width]
      omega
    rw [hwidth]
    cases kind with
    | text =>
      simp only [ValueKind.tag] at hbyte
      simp only [readColumns, hbyte, bind, Except.bind, hword, hraw, show chr (ascii 't') = 't' from rfl,
        show ¬ ('t' = 'n') by decide, show ¬ ('t' = 'u') by decide, if_false, true_or, if_true]
      rfl
    | binary =>
      simp only [ValueKind.tag] at hbyte
      simp only [readColumns, hbyte, bind, Except.bind, hword, hraw, show chr (ascii 'b') = 'b' from rfl,
        show ¬ ('b' = 'n') by decide, show ¬ ('b' = 'u') by decide, show ¬ ('b' = 't') by decide,
        if_false, false_or, if_true]
      rfl

/-- When the loop gets past an entry, it has met one it accepts. -/
theorem exists_entry_of_readColumns {off count i : ℕ} {row : Row} {r : Row × ℕ}
    (h : readColumns data relation (count + 1) i off row = .ok r) :
    ∃ (e : Entry) (rest : Bytes), data.drop off = e.encode ++ rest ∧ e.AcceptedBefore rest := by
  rw [readColumns] at h
  obtain ⟨b, hbyte, h⟩ := bind_eq_ok.mp h
  obtain ⟨rest, hdrop⟩ := byteAt_eq_ok_iff.mp hbyte
  have hvalue : ∀ kind : ValueKind, chr b = kind.tag →
      (∃ len, unpack 4 data (off + 1) = .ok len) →
      ∃ (e : Entry) (rest : Bytes), data.drop off = e.encode ++ rest ∧ e.AcceptedBefore rest := by
    rintro kind hkind ⟨len, hword⟩
    obtain ⟨after, hafter, hlen⟩ := (unpack_eq_ok_iff (by decide)).mp hword
    have hrest : rest = beBytes 4 len ++ after := by rw [← hafter, drop_past_byte hdrop]
    -- the bytes that are there, and what follows them
    refine ⟨.value kind len (after.take len), after.drop len, ?_, hlen, ?_⟩
    · rw [hdrop, hrest, eq_ascii_of_chr hkind, Entry.encode, List.cons_append, List.append_assoc,
        List.take_append_drop]
    · rw [List.length_take]
      by_cases hfull : len ≤ after.length
      · exact Or.inl (by omega)
      · exact Or.inr ⟨by omega, List.drop_of_length_le (by omega)⟩
  by_cases hn : chr b = 'n'
  · exact ⟨.null, rest, by rw [hdrop, eq_ascii_of_chr hn]; rfl, trivial⟩
  · by_cases hu : chr b = 'u'
    · exact ⟨.unchanged, rest, by rw [hdrop, eq_ascii_of_chr hu]; rfl, trivial⟩
    · rw [if_neg hn, if_neg hu] at h
      by_cases htb : chr b = 't' ∨ chr b = 'b'
      · rw [if_pos htb] at h
        obtain ⟨len, hword, -⟩ := bind_eq_ok.mp h
        rcases htb with ht | hb
        · exact hvalue .text ht ⟨len, hword⟩
        · exact hvalue .binary hb ⟨len, hword⟩
      · rw [not_or] at htb
        exact ⟨.unknown b, rest, hdrop, hn, hu, htb.1, htb.2⟩

/-- **The entries the column loop accepts**, and the row it files them in.  The induction is on the
columns left. -/
theorem readColumns_eq_ok_iff {count i off : ℕ} {row row' : Row} {off' : ℕ} :
    readColumns data relation count i off row = .ok (row', off') ↔
      ∃ es tail, es.length = count ∧ data.drop off = es.flatMap Entry.encode ++ tail ∧
        AcceptedEntries tail es ∧ row' = fileEntries relation i es row ∧
        off' = off + (es.map Entry.width).sum := by
  induction count generalizing i off row with
  | zero =>
    rw [readColumns]
    constructor
    · intro h
      cases h
      exact ⟨[], _, rfl, rfl, trivial, rfl, rfl⟩
    · rintro ⟨es, tail, hlen, -, -, rfl, rfl⟩
      rw [List.length_eq_zero_iff] at hlen
      subst hlen
      rfl
  | succ count ih =>
    constructor
    · intro h
      obtain ⟨e, rest, hdrop, he⟩ := exists_entry_of_readColumns relation h
      rw [readColumns_entry relation hdrop he] at h
      obtain ⟨es, tail, hlen, hrest, hes, hrow, hoff⟩ := ih.mp h
      rw [drop_past_entry hdrop he] at hrest
      refine ⟨e :: es, tail, by rw [List.length_cons, hlen], ?_, ⟨hrest ▸ he, hes⟩, hrow, ?_⟩
      · rw [hdrop, hrest, List.flatMap_cons, List.append_assoc]
      · rw [hoff, List.map_cons, List.sum_cons, Nat.add_assoc]
    · rintro ⟨es, tail, hlen, hdrop, hes, hrow, hoff⟩
      cases es with
      | nil => cases hlen
      | cons e es =>
        obtain ⟨he, hes⟩ := hes
        rw [List.flatMap_cons, List.append_assoc] at hdrop
        rw [readColumns_entry relation hdrop he]
        refine ih.mpr ⟨es, tail, Nat.succ.inj hlen, drop_past_entry hdrop he, hes, hrow, ?_⟩
        rw [hoff, List.map_cons, List.sum_cons, Nat.add_assoc]

/-- Behind accepted entries. -/
theorem drop_past_entries {es : List Entry} {tail : Bytes} {off : ℕ}
    (h : data.drop off = es.flatMap Entry.encode ++ tail) (hes : AcceptedEntries tail es) :
    data.drop (off + (es.map Entry.width).sum) = tail := by
  induction es generalizing off with
  | nil => exact h
  | cons e es ih =>
    rw [List.flatMap_cons, List.append_assoc] at h
    rw [List.map_cons, List.sum_cons, ← Nat.add_assoc]
    exact ih (drop_past_entry h hes.1) hes.2

end Columns

/-! ### Tuples -/

def encodeEntries (es : List Entry) : Bytes := beBytes 2 es.length ++ es.flatMap Entry.encode

/-- The row `_read_tuple` builds from accepted entries. -/
def filedRow (relation : RelationInfo) (es : List Entry) : Row := fileEntries relation 0 es ∅

/-- A tuple the parser accepts in front of `tail`. -/
def AcceptedTuple (tail : Bytes) (es : List Entry) : Prop :=
  es.length < 2 ^ 16 ∧ AcceptedEntries tail es

instance (tail : Bytes) : DecidablePred (AcceptedTuple tail) :=
  fun _ => inferInstanceAs (Decidable (_ ∧ _))

/-- A tuple of the protocol. -/
def WellFormedTuple (es : List Entry) : Prop := es.length < 2 ^ 16 ∧ ∀ e ∈ es, e.WellFormed

instance : DecidablePred WellFormedTuple := fun _ => inferInstanceAs (Decidable (_ ∧ _))

theorem WellFormedTuple.accepted {es : List Entry} (h : WellFormedTuple es) (tail : Bytes) :
    AcceptedTuple tail es :=
  ⟨h.1, acceptedEntries_of_wellFormed tail h.2⟩

section Tuples

variable {data tail : Bytes} {off : ℕ} (relation : RelationInfo)

/-- **The tuples `_read_tuple` accepts**, and where it stops reading. -/
theorem readTuple_eq_ok_iff {row : Row} {rest : Bytes} :
    (∃ off', readTuple data off relation = .ok (row, off') ∧ data.drop off' = rest) ↔
      ∃ es, data.drop off = encodeEntries es ++ rest ∧ AcceptedTuple rest es ∧
        row = filedRow relation es := by
  constructor
  · rintro ⟨off', h, hrest⟩
    obtain ⟨count, hcount, hcols⟩ := bind_eq_ok.mp h
    obtain ⟨after, hafter, hsize⟩ := (unpack_eq_ok_iff (by decide)).mp hcount
    obtain ⟨es, tail, hlen, hdrop, hes, hrow, hoff⟩ := (readColumns_eq_ok_iff relation).mp hcols
    have htail : tail = rest := by rw [← hrest, hoff, drop_past_entries hdrop hes]
    rw [drop_past_word hafter] at hdrop
    rw [← htail]
    refine ⟨es, ?_, ⟨by rw [hlen]; exact hsize, hes⟩, hrow⟩
    rw [hafter, hdrop, encodeEntries, hlen, List.append_assoc]
  · rintro ⟨es, hdrop, ⟨hsize, hes⟩, hrow⟩
    rw [encodeEntries, List.append_assoc] at hdrop
    have hcount : unpack 2 data off = .ok es.length := unpack_at hdrop hsize (by decide)
    have hentries := drop_past_word hdrop
    refine ⟨off + 2 + (es.map Entry.width).sum, ?_, drop_past_entries hentries hes⟩
    exact bind_eq_ok.mpr ⟨es.length, hcount,
      (readColumns_eq_ok_iff relation).mpr ⟨es, rest, rfl, hentries, hes, hrow, rfl⟩⟩

/-- A tuple that is read leaves some rest behind. -/
theorem exists_entries_of_readTuple {row : Row} {off' : ℕ}
    (h : readTuple data off relation = .ok (row, off')) :
    ∃ es, data.drop off = encodeEntries es ++ data.drop off' ∧
      AcceptedTuple (data.drop off') es ∧ row = filedRow relation es :=
  (readTuple_eq_ok_iff relation).mp ⟨off', h, rfl⟩

/-- An accepted tuple is read. -/
theorem readTuple_entries {es : List Entry} (h : data.drop off = encodeEntries es ++ tail)
    (hes : AcceptedTuple tail es) :
    ∃ off', readTuple data off relation = .ok (filedRow relation es, off') ∧
      data.drop off' = tail :=
  (readTuple_eq_ok_iff relation).mpr ⟨es, h, hes, rfl⟩

end Tuples

/-! ### One reading -/

/-- The value in front of `bs`, behind its tag. -/
def Entry.readValue (kind : ValueKind) (bs : Bytes) : Entry × Bytes :=
  let len := beNat (bs.take 4)
  (.value kind len ((bs.drop 4).take len), (bs.drop 4).drop len)

/-- The entry in front of `bs`. -/
def Entry.read : Bytes → Option (Entry × Bytes)
  | [] => none
  | b :: bs =>
    if chr b = 'n' then some (.null, bs)
    else if chr b = 'u' then some (.unchanged, bs)
    else if chr b = 't' then some (Entry.readValue .text bs)
    else if chr b = 'b' then some (Entry.readValue .binary bs)
    else some (.unknown b, bs)

theorem Entry.read_encode {e : Entry} {rest : Bytes} (he : e.AcceptedBefore rest) :
    Entry.read (e.encode ++ rest) = some (e, rest) := by
  cases e with
  | null => rfl
  | unchanged => rfl
  | unknown kind =>
    obtain ⟨hn, hu, ht, hb⟩ := he
    rw [Entry.encode, List.singleton_append, Entry.read, if_neg hn, if_neg hu, if_neg ht, if_neg hb]
  | value kind len bs =>
    obtain ⟨hlen, hbs⟩ := he
    have hword : (beBytes 4 len ++ (bs ++ rest)).take 4 = beBytes 4 len := List.take_left' (by simp)
    have hafter : (beBytes 4 len ++ (bs ++ rest)).drop 4 = bs ++ rest := List.drop_left' (by simp)
    have hvalue : Entry.readValue kind (beBytes 4 len ++ (bs ++ rest)) = (.value kind len bs, rest) := by
      have hfront : (bs ++ rest).drop 0 = bs ++ rest := List.drop_zero
      have htake := take_value hfront hbs
      have hdrop := drop_past_value hfront hbs
      rw [List.drop_zero] at htake
      rw [Nat.zero_add] at hdrop
      simp only [Entry.readValue, hword, hafter, beNat_beBytes 4 len hlen, htake, hdrop]
    rw [Entry.encode, List.cons_append, List.append_assoc, Entry.read]
    cases kind with
    | text =>
      rw [hvalue]
      rfl
    | binary =>
      rw [hvalue]
      rfl

theorem entries_inj {es es' : List Entry} {tail tail' : Bytes} (hsize : es.length = es'.length)
    (hes : AcceptedEntries tail es) (hes' : AcceptedEntries tail' es')
    (h : es.flatMap Entry.encode ++ tail = es'.flatMap Entry.encode ++ tail') :
    es = es' ∧ tail = tail' := by
  induction es generalizing es' with
  | nil =>
    rw [List.eq_nil_of_length_eq_zero hsize.symm] at h ⊢
    exact ⟨rfl, h⟩
  | cons e es ih =>
    cases es' with
    | nil => cases hsize
    | cons e' es' =>
      rw [List.flatMap_cons, List.flatMap_cons, List.append_assoc, List.append_assoc] at h
      have hread := Entry.read_encode hes.1
      rw [h, Entry.read_encode hes'.1] at hread
      obtain ⟨hhead, hrest⟩ := Prod.mk.inj (Option.some.inj hread)
      obtain ⟨hes, htail⟩ := ih (Nat.succ.inj hsize) hes.2 hes'.2 hrest.symm
      exact ⟨by rw [hhead, hes], htail⟩

theorem tuple_inj {es es' : List Entry} {tail tail' : Bytes} (hes : AcceptedTuple tail es)
    (hes' : AcceptedTuple tail' es') (h : encodeEntries es ++ tail = encodeEntries es' ++ tail') :
    es = es' ∧ tail = tail' := by
  rw [encodeEntries, encodeEntries, List.append_assoc, List.append_assoc] at h
  obtain ⟨hsize, hentries⟩ := word_append_inj hes.1 hes'.1 h
  exact entries_inj hsize hes.2 hes'.2 hentries

end PgSnowflakeCdc
