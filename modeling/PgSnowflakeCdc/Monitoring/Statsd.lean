import PgSnowflakeCdc.Foundations.Delimited
import PgSnowflakeCdc.Monitoring.Metrics

/-!
# Metrics through an agent (`_StatsdClient`)

With an agent every call is one datagram, `metric:value|type|#tag,tag`, without any escape.

* `tagStr`, `datagram` — the text `increment` and `gauge` send;
* `Sample`, `readPacket` — the calls a packet of this format stands for;
* `datagram_reads_back_iff` — **a datagram reads back as its call exactly when no part of the call contains
  a delimiter.**
-/

namespace PgSnowflakeCdc

open Delimited

namespace Deployment

variable (d : Deployment)

/-- `_tag_str`. -/
def tagStr (extraTags : List String) : String :=
  let tags := d.globalTags ++ extraTags
  if tags = [] then "" else "|#" ++ ",".intercalate tags

/-- What `increment` and `gauge` give to `_send`. -/
def datagram : MetricCall → String
  | .increment metric value tags => metric ++ ":" ++ toString value ++ "|c" ++ d.tagStr tags
  | .gauge metric value tags => metric ++ ":" ++ value ++ "|g" ++ d.tagStr tags

end Deployment

/-! ### Reading -/

/-- One message of a packet. -/
structure Sample where
  metric : List Char
  value : List Char
  type : List Char
  tags : List (List Char)
deriving DecidableEq

/-- A message is its number, its type and its tags, between bars. -/
def readMessage (message : List Char) : Option Sample :=
  match message.splitOn '|' with
  | [number, type, '#' :: tags] =>
    match number.splitOn ':' with
    | [metric, value] => some ⟨metric, value, type, tags.splitOn ','⟩
    | _ => none
  | _ => none

/-- A packet may hold several messages, one a line. -/
def readPacket (packet : List Char) : List (Option Sample) := (packet.splitOn '\n').map readMessage

namespace Sample

def encodeNumber (s : Sample) : List Char := [':'].intercalate [s.metric, s.value]

def encodeTags (s : Sample) : List Char := [','].intercalate s.tags

/-- The message of a sample with tags. -/
def encode (s : Sample) : List Char :=
  ['|'].intercalate [s.encodeNumber, s.type, '#' :: s.encodeTags]

/-- No part of the sample contains a delimiter of its place, a bar or a line break. -/
structure Plain (s : Sample) : Prop where
  metric : ∀ c ∈ [':', '|', '\n'], c ∉ s.metric
  value : ∀ c ∈ [':', '|', '\n'], c ∉ s.value
  tags : ∀ tag ∈ s.tags, ∀ c ∈ [',', '|', '\n'], c ∉ tag

/-- As the client writes them: with tags, and a type of one letter. -/
structure Typed (s : Sample) : Prop where
  type : s.type = ['c'] ∨ s.type = ['g']
  tags : s.tags ≠ []

variable {s : Sample}

theorem Typed.not_mem_type (h : s.Typed) {c : Char} (hc : c ∈ ['|', '\n']) : c ∉ s.type := by
  rcases h.type with htype | htype <;> rcases List.mem_pair.mp hc with heq | heq <;>
    (rw [htype, heq]; decide)

/-- What a message contains besides bars. -/
theorem mem_encode_iff {c : Char} (h : c ≠ '|') :
    c ∈ s.encode ↔ c ∈ s.encodeNumber ∨ c ∈ s.type ∨ c = '#' ∨ c ∈ s.encodeTags := by
  rw [encode, mem_intercalate_iff h]
  simp

/-- The number and the tags of a message that has been read between its bars. -/
theorem readMessage_of_fields {message : List Char} {number type tags : List Char}
    (h : message.splitOn '|' = [number, type, '#' :: tags]) :
    readMessage message =
      match number.splitOn ':' with
      | [metric, value] => some ⟨metric, value, type, tags.splitOn ','⟩
      | _ => none := by
  rw [readMessage, h]
  rfl

/-- **A plain sample reads back.** -/
theorem Plain.readPacket_encode (h : s.Plain) (ht : s.Typed) : readPacket s.encode = [some s] := by
  have hnumber : ∀ c ∈ ['|', '\n'], c ∉ s.encodeNumber := by
    intro c hc hmem
    have hcolon : c ≠ ':' := by
      rcases List.mem_pair.mp hc with heq | heq <;> (rw [heq]; decide)
    have hdelim : c ∈ [':', '|', '\n'] := List.mem_cons_of_mem _ hc
    obtain ⟨field, hfield, hin⟩ := (mem_intercalate_iff hcolon).mp hmem
    rcases List.mem_pair.mp hfield with heq | heq
    · exact h.metric c hdelim (heq ▸ hin)
    · exact h.value c hdelim (heq ▸ hin)
  have htags : ∀ c ∈ ['|', '\n'], c ∉ s.encodeTags := by
    intro c hc hmem
    have hcomma : c ≠ ',' := by
      rcases List.mem_pair.mp hc with heq | heq <;> (rw [heq]; decide)
    obtain ⟨tag, htag, hin⟩ := (mem_intercalate_iff hcomma).mp hmem
    exact h.tags tag htag c (List.mem_cons_of_mem _ hc) hin
  have hline : s.encode.splitOn '\n' = [s.encode] := by
    apply List.splitOn_eq_singleton
    rw [mem_encode_iff (by decide)]
    rintro (hmem | hmem | hmem | hmem)
    · exact hnumber '\n' (by decide) hmem
    · exact ht.not_mem_type (by decide) hmem
    · exact absurd hmem (by decide)
    · exact htags '\n' (by decide) hmem
  have hbars : s.encode.splitOn '|' = [s.encodeNumber, s.type, '#' :: s.encodeTags] := by
    rw [encode, splitOn_intercalate_iff (by simp)]
    simp only [List.forall_mem_cons]
    refine ⟨hnumber '|' (by decide), ht.not_mem_type (by decide), ?_, by simp⟩
    rw [List.mem_cons, not_or]
    exact ⟨by decide, htags '|' (by decide)⟩
  have hpair : s.encodeNumber.splitOn ':' = [s.metric, s.value] := by
    rw [encodeNumber, splitOn_intercalate_iff (by simp)]
    simp only [List.forall_mem_cons]
    exact ⟨h.metric ':' (by decide), h.value ':' (by decide), by simp⟩
  have hlist : s.encodeTags.splitOn ',' = s.tags := by
    rw [encodeTags, splitOn_intercalate_iff ht.tags]
    exact fun tag htag => h.tags tag htag ',' (by decide)
  rw [readPacket, hline, List.map_singleton, readMessage_of_fields hbars, hpair, hlist]

/-- The parts of a message that reads as a sample. -/
theorem fields_of_readMessage {message : List Char} (h : readMessage message = some s) :
    ∃ number tags, message.splitOn '|' = [number, s.type, '#' :: tags] ∧
      number.splitOn ':' = [s.metric, s.value] ∧ tags.splitOn ',' = s.tags := by
  rw [readMessage] at h
  split at h
  · next number type tags hbars =>
    split at h
    · next metric value hpair =>
      cases h
      exact ⟨number, tags, hbars, hpair, rfl⟩
    · cases h
  · cases h

/-- **A packet that reads as one sample** was written by a plain one. -/
theorem Plain.of_readPacket {packet : List Char} (h : readPacket packet = [some s]) : s.Plain := by
  obtain ⟨message, hlines, hread⟩ : ∃ message, packet.splitOn '\n' = [message] ∧
      readMessage message = some s := by
    rw [readPacket] at h
    cases hlines : packet.splitOn '\n' with
    | nil => exact absurd hlines (List.splitOn_ne_nil _ _)
    | cons message rest =>
        rw [hlines, List.map_cons, List.cons.injEq, List.map_eq_nil_iff] at h
        rw [h.2]
        exact ⟨message, rfl, h.1⟩
  obtain ⟨number, tags, hbars, hpair, hlist⟩ := fields_of_readMessage hread
  have hbreak : '\n' ∉ message := not_mem_of_mem_splitOn (hlines ▸ List.mem_singleton.mpr rfl)
  -- each part is a field of a field of the message, so the message contains what the part contains
  have hmessage : ∀ field ∈ [number, s.type, '#' :: tags], '|' ∉ field ∧ '\n' ∉ field := by
    intro field hfield
    refine ⟨not_mem_of_mem_splitOn (hbars ▸ hfield), fun hmem => hbreak ?_⟩
    have hsplit : ['|'].intercalate (message.splitOn '|') = message := List.intercalate_splitOn '|'
    rw [← hsplit, hbars, mem_intercalate_iff (by decide)]
    exact ⟨field, hfield, hmem⟩
  have hnumber : ∀ part ∈ [s.metric, s.value], ∀ c ∈ [':', '|', '\n'], c ∉ part := by
    intro part hpart c hc hmem
    by_cases hcolon : c = ':'
    · rw [hcolon] at hmem
      exact not_mem_of_mem_splitOn (hpair ▸ hpart) hmem
    · have hin : c ∈ number := by
        have hsplit : [':'].intercalate (number.splitOn ':') = number := List.intercalate_splitOn ':'
        rw [← hsplit, hpair, mem_intercalate_iff hcolon]
        exact ⟨part, hpart, hmem⟩
      have hfree := hmessage number List.mem_cons_self
      rcases List.mem_pair.mp ((List.mem_cons.mp hc).resolve_left hcolon) with heq | heq
      · exact hfree.1 (heq ▸ hin)
      · exact hfree.2 (heq ▸ hin)
  refine ⟨hnumber _ List.mem_cons_self, hnumber _ (List.mem_cons_of_mem _ List.mem_cons_self), ?_⟩
  intro tag htag c hc hmem
  by_cases hcomma : c = ','
  · rw [hcomma] at hmem
    exact not_mem_of_mem_splitOn (hlist ▸ htag) hmem
  · have hin : c ∈ '#' :: tags := by
      apply List.mem_cons_of_mem
      have hsplit : [','].intercalate (tags.splitOn ',') = tags := List.intercalate_splitOn ','
      rw [← hsplit, hlist, mem_intercalate_iff hcomma]
      exact ⟨tag, htag, hmem⟩
    have hfree := hmessage ('#' :: tags) (by simp)
    rcases List.mem_pair.mp ((List.mem_cons.mp hc).resolve_left hcomma) with heq | heq
    · exact hfree.1 (heq ▸ hin)
    · exact hfree.2 (heq ▸ hin)

end Sample

/-! ### The client's datagrams -/

/-- The call a datagram is sent for, with the global tags. -/
def MetricCall.sample (d : Deployment) : MetricCall → Sample
  | .increment metric value tags =>
    ⟨metric.toList, (toString value).toList, ['c'], (d.globalTags ++ tags).map String.toList⟩
  | .gauge metric value tags =>
    ⟨metric.toList, value.toList, ['g'], (d.globalTags ++ tags).map String.toList⟩

variable (d : Deployment)

theorem tags_ne_nil (tags : List String) : d.globalTags ++ tags ≠ [] := by
  rw [Deployment.globalTags]
  exact List.cons_ne_nil _ _

theorem typed_sample (c : MetricCall) : (c.sample d).Typed := by
  cases c with
  | increment metric value tags => exact ⟨Or.inl rfl, mt List.map_eq_nil_iff.mp (tags_ne_nil d tags)⟩
  | gauge metric value tags => exact ⟨Or.inr rfl, mt List.map_eq_nil_iff.mp (tags_ne_nil d tags)⟩

theorem toList_tagStr (tags : List String) :
    (d.tagStr tags).toList
      = '|' :: '#' :: [','].intercalate ((d.globalTags ++ tags).map String.toList) := by
  rw [Deployment.tagStr]
  simp only [if_neg (tags_ne_nil d tags), String.toList_append, String.toList_intercalate]
  rfl

/-- **A datagram is the message of its call.** -/
theorem toList_datagram (c : MetricCall) : (d.datagram c).toList = (c.sample d).encode := by
  cases c with
  | increment metric value tags =>
      rw [Deployment.datagram]
      simp only [String.toList_append, toList_tagStr]
      simp [MetricCall.sample, Sample.encode, Sample.encodeNumber, Sample.encodeTags, List.intercalate]
  | gauge metric value tags =>
      rw [Deployment.datagram]
      simp only [String.toList_append, toList_tagStr]
      simp [MetricCall.sample, Sample.encode, Sample.encodeNumber, Sample.encodeTags, List.intercalate]

/-- **A datagram reads back as its call exactly when no part of the call contains a delimiter**: no colon,
bar or line break in the metric and the number, no comma, bar or line break in a tag, the global ones
included.  Every other call is read as something else. -/
theorem datagram_reads_back_iff (d : Deployment) (c : MetricCall) :
    readPacket (d.datagram c).toList = [some (c.sample d)] ↔ (c.sample d).Plain := by
  rw [toList_datagram]
  constructor
  · intro h
    exact .of_readPacket h
  · intro h
    exact h.readPacket_encode (typed_sample d c)

end PgSnowflakeCdc
