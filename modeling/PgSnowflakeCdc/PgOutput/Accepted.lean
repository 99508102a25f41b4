import PgSnowflakeCdc.PgOutput.Entries
import PgSnowflakeCdc.PgOutput.Skipped

/-!
# The row messages the parser accepts

The language of row messages for which `parse` returns an event, and the event each of them denotes.
It is wider than the grammar of the protocol: its tuples are, and an Update or Delete may have any byte
where the marker of a tuple is due.

* `parse_eq_event_iff` — **the accepted language**, with the event each message denotes;
* `encode_inj` — a payload is read in one way only;
* `parse_accepts_grammar_iff` — **every accepted payload is well formed exactly when it is not one of
  the accepted malformed messages.**
-/

namespace PgSnowflakeCdc

open OrderedDict BigEndian PgOutputParser

/-! ### Messages -/

/-- An Insert, Update or Delete as the parser reads it; `updateOther` and `deleteOther` have a byte
that is no marker where a tuple is due. -/
inductive RowMessage where
  | insert (oid : UInt32) (new : List Entry) : RowMessage
  | update (oid : UInt32) (old : Option (OldKind × List Entry)) (new : List Entry) : RowMessage
  | updateOther (oid : UInt32) (old : Option (OldKind × List Entry)) (marker : UInt8) : RowMessage
  | delete (oid : UInt32) (kind : OldKind) (old : List Entry) : RowMessage
  | deleteOther (oid : UInt32) (marker : UInt8) : RowMessage
deriving DecidableEq

/-- The optional old tuple of an Update. -/
def encodeOld : Option (OldKind × List Entry) → Bytes
  | none => []
  | some (kind, es) => ascii kind.tag :: encodeEntries es

namespace RowMessage

def encode : RowMessage → Bytes
  | .insert oid new => ascii 'I' :: (beBytes 4 oid.toNat ++ (ascii 'N' :: encodeEntries new))
  | .update oid old new =>
    ascii 'U' :: (beBytes 4 oid.toNat ++ (encodeOld old ++ ascii 'N' :: encodeEntries new))
  | .updateOther oid old marker =>
    ascii 'U' :: (beBytes 4 oid.toNat ++ (encodeOld old ++ [marker]))
  | .delete oid kind old =>
    ascii 'D' :: (beBytes 4 oid.toNat ++ (ascii kind.tag :: encodeEntries old))
  | .deleteOther oid marker => ascii 'D' :: (beBytes 4 oid.toNat ++ [marker])

def oid : RowMessage → UInt32
  | .insert oid _ => oid
  | .update oid _ _ => oid
  | .updateOther oid _ _ => oid
  | .delete oid _ _ => oid
  | .deleteOther oid _ => oid

/-- The event a message denotes for an announced relation. -/
def event (parser : PgOutputParser) (relation : RelationInfo) (lsn : ℕ) : RowMessage → ChangeEvent
  | .insert _ new => parser.event .c relation none (some (filedRow relation new)) lsn
  | .update _ old new =>
    parser.event .u relation (old.map fun o => filedRow relation o.2)
      (some (filedRow relation new)) lsn
  | .updateOther _ old _ =>
    parser.event .u relation (old.map fun o => filedRow relation o.2) none lsn
  | .delete _ _ old => parser.event .d relation (some (filedRow relation old)) none lsn
  | .deleteOther _ _ => parser.event .d relation none none lsn

/-- A message of the protocol. -/
def WellFormed : RowMessage → Prop
  | .insert _ new => WellFormedTuple new
  | .update _ old new => (∀ o ∈ old, WellFormedTuple o.2) ∧ WellFormedTuple new
  | .updateOther _ _ _ => False
  | .delete _ _ old => WellFormedTuple old
  | .deleteOther _ _ => False

instance : DecidablePred WellFormed
  | .insert _ _ => inferInstanceAs (Decidable (WellFormedTuple _))
  | .update _ _ _ => inferInstanceAs (Decidable ((∀ _ ∈ _, _) ∧ _))
  | .updateOther _ _ _ => isFalse not_false
  | .delete _ _ _ => inferInstanceAs (Decidable (WellFormedTuple _))
  | .deleteOther _ _ => isFalse not_false

/-- A message the parser accepts in front of `tail`. -/
def AcceptedBefore (tail : Bytes) : RowMessage → Prop
  | .insert _ new => AcceptedTuple tail new
  | .update _ old new =>
    (∀ o ∈ old, AcceptedTuple (ascii 'N' :: encodeEntries new ++ tail) o.2) ∧
      AcceptedTuple tail new
  | .updateOther _ old marker =>
    (∀ o ∈ old, AcceptedTuple (marker :: tail) o.2) ∧ chr marker ≠ 'N' ∧
      (old = none → chr marker ≠ 'K' ∧ chr marker ≠ 'O')
  | .delete _ _ old => AcceptedTuple tail old
  | .deleteOther _ marker => chr marker ≠ 'K' ∧ chr marker ≠ 'O'

instance (tail : Bytes) : DecidablePred (AcceptedBefore tail)
  | .insert _ _ => inferInstanceAs (Decidable (AcceptedTuple _ _))
  | .update _ _ _ => inferInstanceAs (Decidable ((∀ _ ∈ _, _) ∧ _))
  | .updateOther _ _ _ => inferInstanceAs (Decidable ((∀ _ ∈ _, _) ∧ _))
  | .delete _ _ _ => inferInstanceAs (Decidable (AcceptedTuple _ _))
  | .deleteOther _ _ => inferInstanceAs (Decidable (_ ∧ _))

theorem WellFormed.acceptedBefore {m : RowMessage} (h : m.WellFormed) (tail : Bytes) :
    m.AcceptedBefore tail := by
  cases m with
  | insert oid new => exact WellFormedTuple.accepted h tail
  | update oid old new => exact ⟨fun o ho => (h.1 o ho).accepted _, h.2.accepted tail⟩
  | updateOther oid old marker => exact h.elim
  | delete oid kind old => exact WellFormedTuple.accepted h tail
  | deleteOther oid marker => exact h.elim

end RowMessage

/-! ### What the handlers accept -/

/-- The payload is the message `m` followed by `tail`, for an announced relation, and `event` is the
event it denotes. -/
structure Denotes (parser : PgOutputParser) (lsn : ℕ) (data : Bytes) (event : ChangeEvent)
    (m : RowMessage) (tail : Bytes) : Prop where
  bytes : data = m.encode ++ tail
  announced : ∃ relation, parser.relations.get? m.oid.toNat = some relation ∧
    event = m.event parser relation lsn

section Handlers

variable {parser : PgOutputParser} {body : Bytes} {lsn : ℕ} {event : ChangeEvent}

/-- The OID a handler reads. -/
theorem exists_oid {v : ℕ} (h : unpack 4 body 0 = .ok v) :
    ∃ oid : UInt32, v = oid.toNat ∧ body = beBytes 4 oid.toNat ++ body.drop 4 := by
  obtain ⟨tail, hdrop, hv⟩ := (unpack_eq_ok_iff (by decide)).mp h
  have htail := drop_past_word hdrop
  rw [Nat.zero_add] at htail
  rw [List.drop_zero] at hdrop
  have hsize : v < UInt32.size := hv
  refine ⟨UInt32.ofNat v, (UInt32.toNat_ofNat_of_lt' hsize).symm, ?_⟩
  rw [UInt32.toNat_ofNat_of_lt' hsize, htail]
  exact hdrop

/-- The marker a handler reads behind the OID. -/
theorem exists_marker {b : UInt8} (h : byteAt body 4 = .ok b) :
    body.drop 4 = b :: body.drop 5 := by
  obtain ⟨tail, htail⟩ := byteAt_eq_ok_iff.mp h
  rw [htail, drop_past_byte htail]

/-- **What the handlers share**: an event is returned for an announced relation and a marker behind its
OID. -/
theorem exists_header {handle : RelationInfo → UInt8 → Except PyExc (Option ChangeEvent)}
    (h : (do
      let oid ← unpack 4 body 0
      match parser.relations.get? oid with
      | none => return none
      | some relation =>
        let marker ← byteAt body 4
        handle relation marker) = .ok (some event)) :
    ∃ (oid : UInt32) (relation : RelationInfo) (marker : UInt8),
      parser.relations.get? oid.toNat = some relation ∧
        body = beBytes 4 oid.toNat ++ marker :: body.drop 5 ∧
        handle relation marker = .ok (some event) := by
  obtain ⟨v, hv, h⟩ := bind_eq_ok.mp h
  obtain ⟨oid, rfl, hbody⟩ := exists_oid hv
  cases hrel : parser.relations.get? oid.toNat with
  | none =>
    rw [hrel] at h
    cases h
  | some relation =>
    rw [hrel] at h
    obtain ⟨marker, hmarker, h⟩ := bind_eq_ok.mp h
    rw [exists_marker hmarker] at hbody
    exact ⟨oid, relation, marker, hrel, hbody, h⟩

theorem handleInsert_sound (h : parser.handleInsert body lsn = .ok (some event)) :
    ∃ m tail, Denotes parser lsn (ascii 'I' :: body) event m tail ∧ m.AcceptedBefore tail := by
  rw [handleInsert] at h
  obtain ⟨oid, relation, b, hrel, hbody, h⟩ := exists_header h
  by_cases hN : chr b = 'N'
  · rw [if_neg (not_not.mpr hN)] at h
    obtain ⟨⟨after, off⟩, hafter, h⟩ := bind_eq_ok.mp h
    cases h
    obtain ⟨new, hnew, haccept, rfl⟩ := exists_entries_of_readTuple relation hafter
    refine ⟨.insert oid new, body.drop off, ⟨?_, relation, hrel, rfl⟩, haccept⟩
    rw [hnew, eq_ascii_of_chr hN] at hbody
    rw [RowMessage.encode, List.cons_append, List.append_assoc, List.cons_append, ← hbody]
  · rw [if_pos hN] at h
    cases h

/-- A marker that announces an old tuple. -/
theorem marksOld_iff {c : Char} : c = 'K' ∨ c = 'O' ↔ ∃ kind : OldKind, c = kind.tag := by
  constructor
  · rintro (h | h)
    · exact ⟨.key, h⟩
    · exact ⟨.full, h⟩
  · rintro ⟨kind, h⟩
    cases kind with
    | key => exact Or.inl h
    | full => exact Or.inr h

theorem handleDelete_sound (h : parser.handleDelete body lsn = .ok (some event)) :
    ∃ m tail, Denotes parser lsn (ascii 'D' :: body) event m tail ∧ m.AcceptedBefore tail := by
  rw [handleDelete] at h
  obtain ⟨oid, relation, b, hrel, hbody, h⟩ := exists_header h
  dsimp only at h
  by_cases hold : chr b = 'K' ∨ chr b = 'O'
  · rw [if_pos hold] at h
    obtain ⟨⟨before, off⟩, hbefore, h⟩ := bind_eq_ok.mp h
    cases h
    obtain ⟨kind, hkind⟩ := marksOld_iff.mp hold
    obtain ⟨old, hread, haccept, rfl⟩ := exists_entries_of_readTuple relation hbefore
    refine ⟨.delete oid kind old, body.drop off, ⟨?_, relation, hrel, rfl⟩, haccept⟩
    rw [hread, eq_ascii_of_chr hkind] at hbody
    rw [RowMessage.encode, List.cons_append, List.append_assoc, List.cons_append, ← hbody]
  · rw [if_neg hold] at h
    cases h
    refine ⟨.deleteOther oid b, body.drop 5, ⟨?_, relation, hrel, rfl⟩, not_or.mp hold⟩
    rw [RowMessage.encode, List.cons_append, List.append_assoc, List.singleton_append, ← hbody]

/-- `_handle_update` behind an old tuple. -/
theorem handleUpdate_sound_old {oid : UInt32} {relation : RelationInfo} {kind : OldKind}
    {old : List Entry} {off : ℕ} (hrel : parser.relations.get? oid.toNat = some relation)
    (hbody : body = beBytes 4 oid.toNat ++ ascii kind.tag :: (encodeEntries old ++ body.drop off))
    (hold : AcceptedTuple (body.drop off) old)
    (h : (do
      let marker ← byteAt body off
      if chr marker = 'N' then
        let (after, _) ← readTuple body (off + 1) relation
        return some (parser.event .u relation (some (filedRow relation old)) (some after) lsn)
      else
        return some (parser.event .u relation (some (filedRow relation old)) none lsn)) =
      (.ok (some event) : Except PyExc (Option ChangeEvent))) :
    ∃ m tail, Denotes parser lsn (ascii 'U' :: body) event m tail ∧ m.AcceptedBefore tail := by
  obtain ⟨marker, hmarker, h⟩ := bind_eq_ok.mp h
  obtain ⟨rest, hrest⟩ := byteAt_eq_ok_iff.mp hmarker
  rw [hrest] at hbody hold
  by_cases hN : chr marker = 'N'
  · rw [if_pos hN] at h
    obtain ⟨⟨after, off'⟩, hafter, h⟩ := bind_eq_ok.mp h
    cases h
    obtain ⟨new, hnew, haccept, rfl⟩ := exists_entries_of_readTuple relation hafter
    rw [drop_past_byte hrest] at hnew
    rw [hnew, eq_ascii_of_chr hN] at hbody hold
    refine ⟨.update oid (some (kind, old)) new, body.drop off', ⟨?_, relation, hrel, rfl⟩, ?_, haccept⟩
    · simp only [RowMessage.encode, encodeOld, List.cons_append, List.append_assoc]
      rw [← hbody]
    · rintro o ho
      cases ho
      exact hold
  · rw [if_neg hN] at h
    cases h
    refine ⟨.updateOther oid (some (kind, old)) marker, rest, ⟨?_, relation, hrel, rfl⟩, ?_, hN, by simp⟩
    · simp only [RowMessage.encode, encodeOld, List.cons_append, List.append_assoc, List.nil_append]
      rw [← hbody]
    · rintro o ho
      cases ho
      exact hold

theorem handleUpdate_sound (h : parser.handleUpdate body lsn = .ok (some event)) :
    ∃ m tail, Denotes parser lsn (ascii 'U' :: body) event m tail ∧ m.AcceptedBefore tail := by
  rw [handleUpdate] at h
  obtain ⟨oid, relation, b, hrel, hbody, h⟩ := exists_header h
  dsimp only at h
  by_cases hold : chr b = 'K' ∨ chr b = 'O'
  · rw [if_pos hold] at h
    obtain ⟨⟨before, off⟩, hbefore, h⟩ := bind_eq_ok.mp h
    obtain ⟨kind, hkind⟩ := marksOld_iff.mp hold
    obtain ⟨old, hread, haccept, rfl⟩ := exists_entries_of_readTuple relation hbefore
    rw [hread, eq_ascii_of_chr hkind] at hbody
    exact handleUpdate_sound_old hrel hbody haccept h
  · rw [if_neg hold] at h
    by_cases hN : chr b = 'N'
    · rw [if_pos hN] at h
      obtain ⟨⟨after, off⟩, hafter, h⟩ := bind_eq_ok.mp h
      cases h
      obtain ⟨new, hnew, haccept, rfl⟩ := exists_entries_of_readTuple relation hafter
      refine ⟨.update oid none new, body.drop off, ⟨?_, relation, hrel, rfl⟩, by simp, haccept⟩
      rw [hnew, eq_ascii_of_chr hN] at hbody
      simp only [RowMessage.encode, encodeOld, List.cons_append, List.append_assoc, List.nil_append]
      rw [← hbody]
    · rw [if_neg hN] at h
      cases h
      refine ⟨.updateOther oid none b, body.drop 5, ⟨?_, relation, hrel, rfl⟩, by simp, hN,
        fun _ => not_or.mp hold⟩
      simp only [RowMessage.encode, encodeOld, List.cons_append, List.append_assoc, List.nil_append]
      rw [← hbody]

section Complete

variable {oid : UInt32} {relation : RelationInfo} {tail : Bytes}

/-- Behind the OID, at a marker. -/
theorem marker_at {b : UInt8} (hbody : body = beBytes 4 oid.toNat ++ b :: tail) :
    byteAt body 4 = .ok b ∧ body.drop 5 = tail :=
  ⟨byteAt_at (drop_past_oid hbody), drop_past_byte (drop_past_oid hbody)⟩

theorem handleInsert_complete (hrel : parser.relations.get? oid.toNat = some relation)
    {new : List Entry} (hbody : body = beBytes 4 oid.toNat ++ ascii 'N' :: (encodeEntries new ++ tail))
    (hnew : AcceptedTuple tail new) :
    parser.handleInsert body lsn =
      .ok (some ((RowMessage.insert oid new).event parser relation lsn)) := by
  obtain ⟨hbyte, hdrop⟩ := marker_at hbody
  obtain ⟨off, hread, -⟩ := readTuple_entries relation hdrop hnew
  rw [handleInsert, unpack_oid hbody]
  simp only [bind, Except.bind, hrel, hbyte, hread, show chr (ascii 'N') = 'N' from rfl, ne_eq,
    not_true, if_false]
  rfl

theorem handleDelete_complete (hrel : parser.relations.get? oid.toNat = some relation)
    {kind : OldKind} {old : List Entry}
    (hbody : body = beBytes 4 oid.toNat ++ ascii kind.tag :: (encodeEntries old ++ tail))
    (hold : AcceptedTuple tail old) :
    parser.handleDelete body lsn =
      .ok (some ((RowMessage.delete oid kind old).event parser relation lsn)) := by
  obtain ⟨hbyte, hdrop⟩ := marker_at hbody
  obtain ⟨off, hread, -⟩ := readTuple_entries relation hdrop hold
  rw [handleDelete, unpack_oid hbody]
  simp only [bind, Except.bind, hrel, hbyte, hread, if_pos kind.marksOld]
  rfl

theorem handleDelete_complete_other (hrel : parser.relations.get? oid.toNat = some relation)
    {marker : UInt8} (hbody : body = beBytes 4 oid.toNat ++ marker :: tail)
    (hmarker : chr marker ≠ 'K' ∧ chr marker ≠ 'O') :
    parser.handleDelete body lsn =
      .ok (some ((RowMessage.deleteOther oid marker).event parser relation lsn)) := by
  obtain ⟨hbyte, -⟩ := marker_at hbody
  rw [handleDelete, unpack_oid hbody]
  simp only [bind, Except.bind, hrel, hbyte, if_neg (not_or.mpr hmarker)]
  rfl

theorem handleUpdate_complete_new (hrel : parser.relations.get? oid.toNat = some relation)
    {new : List Entry} (hbody : body = beBytes 4 oid.toNat ++ ascii 'N' :: (encodeEntries new ++ tail))
    (hnew : AcceptedTuple tail new) :
    parser.handleUpdate body lsn =
      .ok (some ((RowMessage.update oid none new).event parser relation lsn)) := by
  obtain ⟨hbyte, hdrop⟩ := marker_at hbody
  obtain ⟨off, hread, -⟩ := readTuple_entries relation hdrop hnew
  rw [handleUpdate, unpack_oid hbody]
  simp only [bind, Except.bind, hrel, hbyte, hread, show chr (ascii 'N') = 'N' from rfl,
    if_neg (show ¬ ('N' = 'K' ∨ 'N' = 'O') by decide), if_true]
  rfl

theorem handleUpdate_complete_other (hrel : parser.relations.get? oid.toNat = some relation)
    {marker : UInt8} (hbody : body = beBytes 4 oid.toNat ++ marker :: tail)
    (hN : chr marker ≠ 'N') (hmarker : chr marker ≠ 'K' ∧ chr marker ≠ 'O') :
    parser.handleUpdate body lsn =
      .ok (some ((RowMessage.updateOther oid none marker).event parser relation lsn)) := by
  obtain ⟨hbyte, -⟩ := marker_at hbody
  rw [handleUpdate, unpack_oid hbody]
  simp only [bind, Except.bind, hrel, hbyte, if_neg (not_or.mpr hmarker), if_neg hN]
  rfl

theorem handleUpdate_complete_old (hrel : parser.relations.get? oid.toNat = some relation)
    {kind : OldKind} {old new : List Entry}
    (hbody : body = beBytes 4 oid.toNat ++
      ascii kind.tag :: (encodeEntries old ++ ascii 'N' :: (encodeEntries new ++ tail)))
    (hold : AcceptedTuple (ascii 'N' :: (encodeEntries new ++ tail)) old)
    (hnew : AcceptedTuple tail new) :
    parser.handleUpdate body lsn =
      .ok (some ((RowMessage.update oid (some (kind, old)) new).event parser relation lsn)) := by
  obtain ⟨hbyte, hdrop⟩ := marker_at hbody
  obtain ⟨off, hread, hrest⟩ := readTuple_entries relation hdrop hold
  have hbyteN := byteAt_at hrest
  obtain ⟨off', hread', -⟩ := readTuple_entries relation (drop_past_byte hrest) hnew
  rw [handleUpdate, unpack_oid hbody]
  simp only [bind, Except.bind, hrel, hbyte, hread, if_pos kind.marksOld, hbyteN, hread',
    show chr (ascii 'N') = 'N' from rfl, if_true]
  rfl

theorem handleUpdate_complete_old_other (hrel : parser.relations.get? oid.toNat = some relation)
    {kind : OldKind} {old : List Entry} {marker : UInt8}
    (hbody : body = beBytes 4 oid.toNat ++
      ascii kind.tag :: (encodeEntries old ++ marker :: tail))
    (hold : AcceptedTuple (marker :: tail) old) (hN : chr marker ≠ 'N') :
    parser.handleUpdate body lsn =
      .ok (some ((RowMessage.updateOther oid (some (kind, old)) marker).event parser relation lsn)) := by
  obtain ⟨hbyte, hdrop⟩ := marker_at hbody
  obtain ⟨off, hread, hrest⟩ := readTuple_entries relation hdrop hold
  have hbyteN := byteAt_at hrest
  rw [handleUpdate, unpack_oid hbody]
  simp only [bind, Except.bind, hrel, hbyte, hread, if_pos kind.marksOld, hbyteN, if_neg hN]
  rfl

end Complete

end Handlers

/-! ### The accepted language -/

theorem catching_eq_event_iff {r : Except PyExc (Option ChangeEvent)} {event : ChangeEvent} :
    catching r = .ok (some event) ↔ r = .ok (some event) := by
  cases r with
  | ok e => exact Iff.rfl
  | error e =>
    rw [catching]
    cases e.isCaught <;> simp

theorem parse_sound {P : Platform} {parser : PgOutputParser} {data : Bytes} {lsn : ℕ}
    {event : ChangeEvent} (h : (parser.parse P data lsn).2 = .ok (some event)) :
    ∃ m tail, Denotes parser lsn data event m tail ∧ m.AcceptedBefore tail := by
  cases data with
  | nil => cases h
  | cons tag body =>
    by_cases hI : chr tag = 'I'
    · rw [eq_ascii_of_chr hI] at h ⊢
      rw [parse_tag_insert, catching_eq_event_iff] at h
      exact handleInsert_sound h
    · by_cases hU : chr tag = 'U'
      · rw [eq_ascii_of_chr hU] at h ⊢
        rw [parse_tag_update, catching_eq_event_iff] at h
        exact handleUpdate_sound h
      · by_cases hD : chr tag = 'D'
        · rw [eq_ascii_of_chr hD] at h ⊢
          rw [parse_tag_delete, catching_eq_event_iff] at h
          exact handleDelete_sound h
        · -- no other message yields an event
          rw [parse_eq_dispatch, catching_eq_event_iff, dispatch] at h
          simp only [if_neg hI, if_neg hU, if_neg hD] at h
          split at h
          · cases hbegin : (parser.handleBegin P body).2 <;> rw [hbegin] at h <;> cases h
          · split at h
            · cases hrel : parser.handleRelation body <;> rw [hrel] at h <;> cases h
            · cases h

theorem parse_complete (P : Platform) {parser : PgOutputParser} {data : Bytes} {lsn : ℕ}
    {event : ChangeEvent} {m : RowMessage} {tail : Bytes} (hm : Denotes parser lsn data event m tail)
    (haccept : m.AcceptedBefore tail) : (parser.parse P data lsn).2 = .ok (some event) := by
  obtain ⟨rfl, relation, hrel, rfl⟩ := hm
  cases m with
  | insert oid new =>
    rw [RowMessage.encode, List.cons_append, List.append_assoc, parse_tag_insert, catching_eq_event_iff]
    exact handleInsert_complete hrel rfl haccept
  | delete oid kind old =>
    rw [RowMessage.encode, List.cons_append, List.append_assoc, parse_tag_delete, catching_eq_event_iff]
    exact handleDelete_complete hrel rfl haccept
  | deleteOther oid marker =>
    rw [RowMessage.encode, List.cons_append, List.append_assoc, parse_tag_delete, catching_eq_event_iff]
    exact handleDelete_complete_other hrel rfl haccept
  | update oid old new =>
    rw [RowMessage.encode, List.cons_append, List.append_assoc, parse_tag_update, catching_eq_event_iff]
    cases old with
    | none => exact handleUpdate_complete_new hrel rfl haccept.2
    | some old =>
      refine handleUpdate_complete_old hrel ?_ (haccept.1 old rfl) haccept.2
      simp only [encodeOld, List.cons_append, List.append_assoc]
      rfl
  | updateOther oid old marker =>
    rw [RowMessage.encode, List.cons_append, List.append_assoc, parse_tag_update, catching_eq_event_iff]
    obtain ⟨hold, hN, hother⟩ := haccept
    cases old with
    | none => exact handleUpdate_complete_other hrel rfl hN (hother rfl)
    | some old =>
      refine handleUpdate_complete_old_other hrel ?_ (hold old rfl) hN
      simp only [encodeOld, List.cons_append, List.append_assoc, List.nil_append]
      rfl

/-- **The accepted language**: `parse` returns an event exactly for the accepted messages of announced
relations, and it is the event the message denotes. -/
theorem parse_eq_event_iff (P : Platform) (parser : PgOutputParser) (data : Bytes) (lsn : ℕ)
    (event : ChangeEvent) :
    (parser.parse P data lsn).2 = .ok (some event) ↔
      ∃ m tail, Denotes parser lsn data event m tail ∧ m.AcceptedBefore tail :=
  ⟨parse_sound, fun ⟨_, _, hm, haccept⟩ => parse_complete P hm haccept⟩

/-! ### One reading -/

theorem OldKind.tag_inj {kind kind' : OldKind} (h : ascii kind.tag = ascii kind'.tag) :
    kind = kind' := by
  cases kind <;> cases kind' <;> first | rfl | exact absurd h (by decide)

theorem OldKind.chr_tag (kind : OldKind) : chr (ascii kind.tag) = kind.tag := by
  cases kind <;> rfl

/-- An optional old tuple in front of the byte that follows it. -/
theorem encodeOld_inj {old old' : Option (OldKind × List Entry)} {b b' : UInt8} {rest rest' : Bytes}
    (hold : ∀ o ∈ old, AcceptedTuple (b :: rest) o.2)
    (hold' : ∀ o ∈ old', AcceptedTuple (b' :: rest') o.2)
    (hb : old = none → ¬ (chr b = 'K' ∨ chr b = 'O'))
    (hb' : old' = none → ¬ (chr b' = 'K' ∨ chr b' = 'O'))
    (h : encodeOld old ++ b :: rest = encodeOld old' ++ b' :: rest') :
    old = old' ∧ b = b' ∧ rest = rest' := by
  cases old with
  | none =>
    cases old' with
    | none =>
      obtain ⟨hhead, hrest⟩ := List.cons.inj h
      exact ⟨rfl, hhead, hrest⟩
    | some o' =>
      obtain ⟨hhead, -⟩ := List.cons.inj h
      exact absurd (marksOld_iff.mpr ⟨o'.1, by rw [hhead, OldKind.chr_tag]⟩) (hb rfl)
  | some o =>
    cases old' with
    | none =>
      obtain ⟨hhead, -⟩ := List.cons.inj h
      exact absurd (marksOld_iff.mpr ⟨o.1, by rw [← hhead, OldKind.chr_tag]⟩) (hb' rfl)
    | some o' =>
      obtain ⟨kind, es⟩ := o
      obtain ⟨kind', es'⟩ := o'
      obtain ⟨hhead, htuple⟩ := List.cons.inj h
      obtain ⟨rfl, hrest⟩ := tuple_inj (hold _ rfl) (hold' _ rfl) htuple
      obtain ⟨hbyte, hrest⟩ := List.cons.inj hrest
      rw [OldKind.tag_inj hhead]
      exact ⟨rfl, hbyte, hrest⟩

/-- The tag and the OID in front of a message. -/
theorem header_inj {c c' : UInt8} {oid oid' : UInt32} {xs ys : Bytes}
    (h : c :: (beBytes 4 oid.toNat ++ xs) = c' :: (beBytes 4 oid'.toNat ++ ys)) :
    c = c' ∧ oid = oid' ∧ xs = ys := by
  obtain ⟨hc, hrest⟩ := List.cons.inj h
  obtain ⟨hoid, hrest⟩ := word_append_inj (UInt32.toNat_lt oid) (UInt32.toNat_lt oid') hrest
  exact ⟨hc, UInt32.toNat_inj.mp hoid, hrest⟩

namespace RowMessage

def tag : RowMessage → Char
  | .insert _ _ => 'I'
  | .update _ _ _ => 'U'
  | .updateOther _ _ _ => 'U'
  | .delete _ _ _ => 'D'
  | .deleteOther _ _ => 'D'

/-- The bytes behind the OID. -/
def payload : RowMessage → Bytes
  | .insert _ new => ascii 'N' :: encodeEntries new
  | .update _ old new => encodeOld old ++ ascii 'N' :: encodeEntries new
  | .updateOther _ old marker => encodeOld old ++ [marker]
  | .delete _ kind old => ascii kind.tag :: encodeEntries old
  | .deleteOther _ marker => [marker]

theorem encode_append (m : RowMessage) (tail : Bytes) :
    m.encode ++ tail = ascii m.tag :: (beBytes 4 m.oid.toNat ++ (m.payload ++ tail)) := by
  cases m <;> simp only [encode, tag, oid, payload, List.cons_append, List.append_assoc]

section Injective

/-- The byte in front of a new tuple marks no old one. -/
theorem not_marksOld_new : ¬ (chr (ascii 'N') = 'K' ∨ chr (ascii 'N') = 'O') := by decide

/-- An Update with a new tuple is none with another byte in its place. -/
theorem update_ne_updateOther {oid oid' : UInt32} {old old' : Option (OldKind × List Entry)}
    {new : List Entry} {marker : UInt8} {tail tail' : Bytes}
    (hm : (update oid old new).AcceptedBefore tail)
    (hm' : (updateOther oid' old' marker).AcceptedBefore tail') :
    (update oid old new).payload ++ tail ≠ (updateOther oid' old' marker).payload ++ tail' := by
  intro h
  rw [payload, payload, List.append_assoc, List.append_assoc] at h
  obtain ⟨-, hmarker, -⟩ := encodeOld_inj hm.1 hm'.1 (fun _ => not_marksOld_new)
    (fun hnone => not_or.mpr (hm'.2.2 hnone)) h
  exact hm'.2.1 (by rw [← hmarker]; rfl)

/-- A Delete with an old tuple is none with another byte in front. -/
theorem delete_ne_deleteOther {oid oid' : UInt32} {kind : OldKind} {old : List Entry} {marker : UInt8}
    {tail tail' : Bytes} (hm' : (deleteOther oid' marker).AcceptedBefore tail') :
    (delete oid kind old).payload ++ tail ≠ (deleteOther oid' marker).payload ++ tail' := by
  intro h
  have hmarker : ascii kind.tag = marker := (List.cons.inj h).1
  exact absurd (marksOld_iff.mpr ⟨kind, by rw [← hmarker, OldKind.chr_tag]⟩) (not_or.mpr hm')

variable {m m' : RowMessage} {tail tail' : Bytes}

/-- **A payload is read in one way only.** -/
theorem encode_inj (hm : m.AcceptedBefore tail) (hm' : m'.AcceptedBefore tail')
    (h : m.encode ++ tail = m'.encode ++ tail') : m = m' ∧ tail = tail' := by
  rw [encode_append, encode_append] at h
  obtain ⟨htag, hoid, h⟩ := header_inj h
  cases m with
  | insert oid new =>
    cases m' with
    | insert oid' new' =>
      obtain ⟨rfl, rfl⟩ := tuple_inj hm hm' (List.cons.inj h).2
      cases hoid
      exact ⟨rfl, rfl⟩
    | update _ _ _ => exact absurd htag (show ascii 'I' ≠ ascii 'U' by decide)
    | updateOther _ _ _ => exact absurd htag (show ascii 'I' ≠ ascii 'U' by decide)
    | delete _ _ _ => exact absurd htag (show ascii 'I' ≠ ascii 'D' by decide)
    | deleteOther _ _ => exact absurd htag (show ascii 'I' ≠ ascii 'D' by decide)
  | update oid old new =>
    cases m' with
    | update oid' old' new' =>
      rw [payload, payload, List.append_assoc, List.append_assoc] at h
      obtain ⟨rfl, -, hnew⟩ := encodeOld_inj hm.1 hm'.1 (fun _ => not_marksOld_new)
        (fun _ => not_marksOld_new) h
      obtain ⟨rfl, rfl⟩ := tuple_inj hm.2 hm'.2 hnew
      cases hoid
      exact ⟨rfl, rfl⟩
    | updateOther oid' old' marker => exact absurd h (update_ne_updateOther hm hm')
    | insert _ _ => exact absurd htag (show ascii 'U' ≠ ascii 'I' by decide)
    | delete _ _ _ => exact absurd htag (show ascii 'U' ≠ ascii 'D' by decide)
    | deleteOther _ _ => exact absurd htag (show ascii 'U' ≠ ascii 'D' by decide)
  | updateOther oid old marker =>
    cases m' with
    | update oid' old' new' => exact absurd h.symm (update_ne_updateOther hm' hm)
    | updateOther oid' old' marker' =>
      rw [payload, payload, List.append_assoc, List.append_assoc] at h
      obtain ⟨rfl, rfl, rfl⟩ := encodeOld_inj hm.1 hm'.1 (fun hnone => not_or.mpr (hm.2.2 hnone))
        (fun hnone => not_or.mpr (hm'.2.2 hnone)) h
      cases hoid
      exact ⟨rfl, rfl⟩
    | insert _ _ => exact absurd htag (show ascii 'U' ≠ ascii 'I' by decide)
    | delete _ _ _ => exact absurd htag (show ascii 'U' ≠ ascii 'D' by decide)
    | deleteOther _ _ => exact absurd htag (show ascii 'U' ≠ ascii 'D' by decide)
  | delete oid kind old =>
    cases m' with
    | delete oid' kind' old' =>
      obtain ⟨hkind, htuple⟩ := List.cons.inj h
      obtain ⟨rfl, rfl⟩ := tuple_inj hm hm' htuple
      cases OldKind.tag_inj hkind
      cases hoid
      exact ⟨rfl, rfl⟩
    | deleteOther oid' marker => exact absurd h (delete_ne_deleteOther hm')
    | insert _ _ => exact absurd htag (show ascii 'D' ≠ ascii 'I' by decide)
    | update _ _ _ => exact absurd htag (show ascii 'D' ≠ ascii 'U' by decide)
    | updateOther _ _ _ => exact absurd htag (show ascii 'D' ≠ ascii 'U' by decide)
  | deleteOther oid marker =>
    cases m' with
    | delete oid' kind' old' => exact absurd h.symm (delete_ne_deleteOther hm)
    | deleteOther oid' marker' =>
      obtain ⟨rfl, rfl⟩ := List.cons.inj h
      cases hoid
      exact ⟨rfl, rfl⟩
    | insert _ _ => exact absurd htag (show ascii 'D' ≠ ascii 'I' by decide)
    | update _ _ _ => exact absurd htag (show ascii 'D' ≠ ascii 'U' by decide)
    | updateOther _ _ _ => exact absurd htag (show ascii 'D' ≠ ascii 'U' by decide)

end Injective

end RowMessage

/-! ### The grammar of the protocol -/

/-- One of the malformed messages the parser accepts, for an announced relation: the last value cut
short, an entry of an unknown kind, or a byte that is no marker where a tuple is due. -/
def AcceptedMalformed (parser : PgOutputParser) (data : Bytes) : Prop :=
  ∃ (m : RowMessage) (tail : Bytes), data = m.encode ++ tail ∧
    (parser.relations.get? m.oid.toNat).isSome ∧ m.AcceptedBefore tail ∧ ¬ m.WellFormed

theorem not_wellFormed_of_denotes {parser : PgOutputParser} {data : Bytes} {lsn : ℕ}
    {event event' : ChangeEvent} {m m' : RowMessage} {tail tail' : Bytes}
    (hm : Denotes parser lsn data event m tail) (haccept : m.AcceptedBefore tail)
    (hmalformed : ¬ m.WellFormed) (hm' : Denotes parser lsn data event' m' tail') : ¬ m'.WellFormed := by
  intro hwf
  obtain ⟨rfl, -⟩ := RowMessage.encode_inj haccept (hwf.acceptedBefore tail')
    (hm.bytes.symm.trans hm'.bytes)
  exact hmalformed hwf

/-- **Every accepted payload is a message of the protocol followed by arbitrary bytes, and the event is
the one that message denotes, exactly unless the payload is one of the accepted malformed messages.** -/
theorem parse_accepts_grammar_iff (P : Platform) (parser : PgOutputParser) (data : Bytes) (lsn : ℕ) :
    (∀ event, (parser.parse P data lsn).2 = .ok (some event) →
        ∃ m tail, Denotes parser lsn data event m tail ∧ m.WellFormed) ↔
      ¬ AcceptedMalformed parser data := by
  constructor
  · rintro hgrammar ⟨m, tail, hbytes, hannounced, haccept, hmalformed⟩
    obtain ⟨relation, hrel⟩ := Option.isSome_iff_exists.mp hannounced
    have hm : Denotes parser lsn data (m.event parser relation lsn) m tail :=
      ⟨hbytes, relation, hrel, rfl⟩
    obtain ⟨m', tail', hm', hwf⟩ := hgrammar _ (parse_complete P hm haccept)
    exact not_wellFormed_of_denotes hm haccept hmalformed hm' hwf
  · intro hmalformed event hevent
    obtain ⟨m, tail, hm, haccept⟩ := parse_sound hevent
    refine ⟨m, tail, hm, ?_⟩
    by_contra hwf
    obtain ⟨relation, hrel, -⟩ := hm.announced
    exact hmalformed ⟨m, tail, hm.bytes, Option.isSome_iff_exists.mpr ⟨relation, hrel⟩, haccept, hwf⟩

/-- A parser to which a table of two columns has been announced. -/
def deviceParser : PgOutputParser :=
  (PgOutputParser.new.parse .ascii
    (Message.relation 7 "public" "customer_devices" 1 [⟨1, "id", 20, 0⟩, ⟨0, "token", 25, 0⟩]).encode
    1).1

def deviceInsert : Bytes := (Message.insert 7 [.text "1", .text "token"]).encode

/-- The message read from an Insert cut short inside its last value. -/
def cutDeviceInsert : RowMessage :=
  .insert 7 [.value .text 1 (utf8Encode "1"), .value .text 5 (utf8Encode "tok")]

/-- **A strict prefix of an Insert is accepted**, with the cut value. -/
theorem deviceInsert_prefix_accepted :
    ∃ event, (deviceParser.parse .ascii (deviceInsert.take 22) 10).2 = .ok (some event) ∧
      22 < deviceInsert.length ∧
      (event.after.bind (·.get? "token")) = some (.str "tok") ∧
      ¬ ∃ m tail, Denotes deviceParser 10 (deviceInsert.take 22) event m tail ∧ m.WellFormed := by
  have hm : ∃ event, Denotes deviceParser 10 (deviceInsert.take 22) event cutDeviceInsert [] ∧
      (event.after.bind (·.get? "token")) = some (.str "tok") := by
    refine ⟨_, ⟨by decide +kernel, ⟨7, "public", "customer_devices",
      [⟨"id", 20, true⟩, ⟨"token", 25, false⟩]⟩, by decide +kernel, rfl⟩, by decide +kernel⟩
  have haccept : cutDeviceInsert.AcceptedBefore [] := by decide +kernel
  have hmalformed : ¬ cutDeviceInsert.WellFormed := by decide +kernel
  obtain ⟨event, hm, htoken⟩ := hm
  exact ⟨event, parse_complete .ascii hm haccept, by decide +kernel, htoken,
    fun ⟨_, _, hm', hwf⟩ => not_wellFormed_of_denotes hm haccept hmalformed hm' hwf⟩

end PgSnowflakeCdc
