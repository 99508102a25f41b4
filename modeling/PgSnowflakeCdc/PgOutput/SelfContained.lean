import PgSnowflakeCdc.PgOutput.RoundTrip

/-!
# Self-contained streams

`pg_logical_slot_get_binary_changes` starts a decoding session of its own in every call: the answer begins
each transaction with a Begin, and announces a relation before the first change of one of its rows,
whatever earlier calls have announced.  Such a stream denotes the same events wherever it stands.

* `Message.Introduced`, `SelfContained` — what the stream says about itself;
* `referenceEvents_append`, `WellFormedStream.append` — the messages in front of it make no difference;
* `feed_selfContained` — **a parser reads it the same, whatever it has read before**;
* `WellFormedStream.concat`, `SelfContained.concat`, `referenceEvents_concat` — one behind another.
-/

namespace PgSnowflakeCdc

/-- A row message whose transaction has begun and whose relation has been announced. -/
def Message.Introduced (earlier : List Message) : Message → Prop
  | .insert oid _ | .update oid _ _ | .delete oid _ _ =>
    (latestRelation earlier oid).isSome = true ∧ (latestBegin earlier).isSome = true
  | _ => True

instance (earlier : List Message) : DecidablePred (Message.Introduced earlier)
  | .insert _ _ | .update _ _ _ | .delete _ _ _ => inferInstanceAs (Decidable (_ ∧ _))
  | .begin _ _ _ | .relation _ _ _ _ _ | .skipped _ _ => isTrue trivial

/-- Every row message of the stream is introduced in it. -/
def SelfContained : (earlier : List Message) → List (ℕ × Message) → Prop
  | _, [] => True
  | earlier, (_, m) :: rest => m.Introduced earlier ∧ SelfContained (m :: earlier) rest

instance decidableSelfContained : ∀ (earlier : List Message) (ms : List (ℕ × Message)),
    Decidable (SelfContained earlier ms)
  | _, [] => isTrue trivial
  | earlier, (_, m) :: rest =>
    haveI := decidableSelfContained (m :: earlier) rest
    inferInstanceAs (Decidable (_ ∧ _))

/-! ### What stood in front -/

variable {P : Platform} {earlier : List Message} (before : List Message)

/-- The latest announcement is not looked for further in front. -/
theorem latestRelation_append {oid : UInt32} (h : (latestRelation earlier oid).isSome = true) :
    latestRelation (earlier ++ before) oid = latestRelation earlier oid := by
  induction earlier with
  | nil => cases h
  | cons m earlier ih =>
      cases m with
      | relation oid' namespace_ table replicaIdentity columns =>
          rw [List.cons_append, latestRelation, latestRelation]
          by_cases hoid : oid' = oid
          · rw [if_pos hoid, if_pos hoid]
          · rw [latestRelation, if_neg hoid] at h
            rw [if_neg hoid, if_neg hoid, ih h]
      | begin finalLsn commitTs xid => exact ih h
      | insert oid' new => exact ih h
      | update oid' old new => exact ih h
      | delete oid' kind old => exact ih h
      | skipped tag body => exact ih h

theorem latestBegin_append (h : (latestBegin earlier).isSome = true) :
    latestBegin (earlier ++ before) = latestBegin earlier := by
  induction earlier with
  | nil => cases h
  | cons m earlier ih =>
      cases m with
      | begin finalLsn commitTs xid => rfl
      | relation oid' namespace_ table replicaIdentity columns => exact ih h
      | insert oid' new => exact ih h
      | update oid' old new => exact ih h
      | delete oid' kind old => exact ih h
      | skipped tag body => exact ih h

/-- An event about a row of an announced relation in a transaction that has begun. -/
theorem rowEvent_append {oid : UInt32} (hrelation : (latestRelation earlier oid).isSome = true)
    (hbegin : (latestBegin earlier).isSome = true) (op : Op) (old new : Announcement → Option Row)
    (lsn : ℕ) :
    rowEvent P (earlier ++ before) oid op old new lsn = rowEvent P earlier oid op old new lsn := by
  rw [rowEvent, rowEvent, tsMsAt, tsMsAt, commitLsnAt, commitLsnAt,
    latestRelation_append before hrelation, latestBegin_append before hbegin]

theorem referenceEvent_append {m : Message} (h : m.Introduced earlier) (lsn : ℕ) :
    referenceEvent P (earlier ++ before) lsn m = referenceEvent P earlier lsn m := by
  cases m with
  | insert oid new => exact rowEvent_append before h.1 h.2 _ _ _ lsn
  | update oid old new => exact rowEvent_append before h.1 h.2 _ _ _ lsn
  | delete oid kind old => exact rowEvent_append before h.1 h.2 _ _ _ lsn
  | begin finalLsn commitTs xid => rfl
  | relation oid namespace_ table replicaIdentity columns => rfl
  | skipped tag body => rfl

/-- **The events of a self-contained stream are its own.** -/
theorem referenceEvents_append {ms : List (ℕ × Message)} (h : SelfContained earlier ms) :
    referenceEvents P (earlier ++ before) ms = referenceEvents P earlier ms := by
  induction ms generalizing earlier with
  | nil => rfl
  | cons p ms ih =>
      obtain ⟨lsn, m⟩ := p
      rw [referenceEvents, referenceEvents, referenceEvent_append before h.1, ← List.cons_append,
        ih h.2]

theorem TupleFor.append {oid : UInt32} {ds : List Datum} (h : TupleFor earlier oid ds)
    (hrelation : (latestRelation earlier oid).isSome = true) :
    TupleFor (earlier ++ before) oid ds := by
  refine ⟨h.size, h.data, fun a ha => h.width a ?_⟩
  rwa [latestRelation_append before hrelation] at ha

theorem Message.WellFormed.append {m : Message} (h : m.WellFormed earlier)
    (hintroduced : m.Introduced earlier) : m.WellFormed (earlier ++ before) := by
  cases m with
  | insert oid new => exact TupleFor.append before h hintroduced.1
  | update oid old new =>
      exact ⟨fun o ho => (h.1 o ho).append before hintroduced.1, h.2.append before hintroduced.1⟩
  | delete oid kind old => exact TupleFor.append before h hintroduced.1
  | begin finalLsn commitTs xid => exact h
  | relation oid namespace_ table replicaIdentity columns => exact h
  | skipped tag body => exact h

theorem WellFormedStream.append {ms : List (ℕ × Message)} (h : WellFormedStream earlier ms)
    (hself : SelfContained earlier ms) : WellFormedStream (earlier ++ before) ms := by
  induction ms generalizing earlier with
  | nil => exact trivial
  | cons p ms ih =>
      obtain ⟨lsn, m⟩ := p
      refine ⟨h.1.append before hself.1, ?_⟩
      rw [← List.cons_append]
      exact ih h.2 hself.2

/-! ### Reading -/

/-- **A parser reads a self-contained stream the same, whatever it has read before.** -/
theorem feed_selfContained {parser : PgOutputParser} {before : List Message}
    (htracks : Tracks P before parser) {ms : List (ℕ × Message)} (h : WellFormedStream [] ms)
    (hself : SelfContained [] ms) :
    feed P parser (encodeStream ms) = (referenceEvents P [] ms).map .ok := by
  rw [feed_encode_from ms htracks (h.append before hself), ← referenceEvents_append before hself,
    List.nil_append]

/-! ### One stream behind another -/

theorem Message.Introduced.append {m : Message} (h : m.Introduced earlier) :
    m.Introduced (earlier ++ before) := by
  have hboth : ∀ {oid : UInt32}, (latestRelation earlier oid).isSome = true ∧
      (latestBegin earlier).isSome = true → (latestRelation (earlier ++ before) oid).isSome = true ∧
        (latestBegin (earlier ++ before)).isSome = true := by
    rintro oid ⟨hrelation, hbegin⟩
    rw [latestRelation_append before hrelation, latestBegin_append before hbegin]
    exact ⟨hrelation, hbegin⟩
  cases m with
  | insert oid new => exact hboth h
  | update oid old new => exact hboth h
  | delete oid kind old => exact hboth h
  | begin finalLsn commitTs xid => exact h
  | relation oid namespace_ table replicaIdentity columns => exact h
  | skipped tag body => exact h

theorem SelfContained.append {ms : List (ℕ × Message)} (h : SelfContained earlier ms) :
    SelfContained (earlier ++ before) ms := by
  induction ms generalizing earlier with
  | nil => exact trivial
  | cons p ms ih =>
      obtain ⟨lsn, m⟩ := p
      refine ⟨h.1.append before, ?_⟩
      rw [← List.cons_append]
      exact ih h.2

/-- The messages of a stream and then those of another one that is self-contained. -/
theorem WellFormedStream.concat {xs ys : List (ℕ × Message)} (hx : WellFormedStream earlier xs)
    (hy : WellFormedStream [] ys) (hself : SelfContained [] ys) :
    WellFormedStream earlier (xs ++ ys) := by
  induction xs generalizing earlier with
  | nil => exact hy.append earlier hself
  | cons p xs ih =>
      obtain ⟨lsn, m⟩ := p
      exact ⟨hx.1, ih hx.2⟩

theorem SelfContained.concat {xs ys : List (ℕ × Message)} (hx : SelfContained earlier xs)
    (hy : SelfContained [] ys) : SelfContained earlier (xs ++ ys) := by
  induction xs generalizing earlier with
  | nil => exact hy.append earlier
  | cons p xs ih =>
      obtain ⟨lsn, m⟩ := p
      exact ⟨hx.1, ih hx.2⟩

theorem referenceEvents_concat (xs : List (ℕ × Message)) {ys : List (ℕ × Message)}
    (hself : SelfContained [] ys) :
    referenceEvents P earlier (xs ++ ys) = referenceEvents P earlier xs ++ referenceEvents P [] ys := by
  induction xs generalizing earlier with
  | nil => exact referenceEvents_append earlier hself
  | cons p xs ih =>
      obtain ⟨lsn, m⟩ := p
      rw [List.cons_append, referenceEvents, ih, referenceEvents, List.cons_append]

end PgSnowflakeCdc
