import PgSnowflakeCdc.Sink.Buffer

/-!
# The LSN a flush reports

`_flush` reports the highest commit LSN of the batch it wrote.  Batches are cut at events, commit
LSNs belong to transactions.

* `SinkRun.reported_last` — the reported LSN is the commit LSN of the last event published;
* `reportedLsn_safe_iff` — the reported LSN covers written events only exactly when the cut lies
  between two transactions (and at least one write attempt is made at all);
* `reportedLsn_inside_transaction` — a batch size of one cuts every transaction;
* `flush_confirms_iff` — a flush that returns an LSN has written its buffer exactly when
  `SF_MAX_RETRIES` allows an attempt.
-/

namespace PgSnowflakeCdc

/-- The order of the WAL: transactions have non-zero commit LSNs that increase from one to the next;
the events of one transaction share theirs. -/
structure WalOrdered (events : List ChangeEvent) : Prop where
  nonzero : ∀ e ∈ events, e.commitLsn ≠ 0
  increasing : events.Pairwise fun e e' => e.commitLsn ≤ e'.commitLsn

/-- Every event of a mapped table committed up to `lsn` is among the written ones, as often as it
occurs in the stream. -/
def WrittenUpTo (lsn : ℕ) (stream written : List ChangeEvent) : Prop :=
  (replicated (stream.filter fun e => e.commitLsn ≤ lsn)).Subperm written

/-! ### Reporting -/

theorem replicated_filter (lsn : ℕ) (events : List ChangeEvent) :
    replicated (events.filter fun e => e.commitLsn ≤ lsn) =
      (replicated events).filter fun e => e.commitLsn ≤ lsn := by
  rw [replicated, replicated, List.filter_map, List.filter_comm]
  rfl

/-- What is replicated of a WAL-ordered stream is WAL-ordered. -/
theorem WalOrdered.replicated {events : List ChangeEvent} (h : WalOrdered events) :
    WalOrdered (replicated events) where
  nonzero e he := by
    obtain ⟨e', he', rfl⟩ := List.mem_map.mp he
    exact h.nonzero e' (List.mem_of_mem_filter he')
  increasing := List.pairwise_map.mpr (h.increasing.filter _)

theorem WalOrdered.sublist {xs ys : List ChangeEvent} (h : WalOrdered ys) (hsub : xs.Sublist ys) :
    WalOrdered xs where
  nonzero e he := h.nonzero e (hsub.subset he)
  increasing := h.increasing.sublist hsub

/-- Nothing is committed behind the last event. -/
theorem WalOrdered.le_last {events : List ChangeEvent} {last : ChangeEvent}
    (h : WalOrdered (events ++ [last])) : ∀ e ∈ events ++ [last], e.commitLsn ≤ last.commitLsn := by
  intro e he
  rcases List.mem_append.mp he with he | he
  · exact (List.pairwise_append.mp h.increasing).2.2 e he last (List.mem_singleton_self last)
  · rw [List.mem_singleton.mp he]

/-- What follows the last event was committed later exactly when the next event was. -/
theorem WalOrdered.filter_rest_eq_nil_iff {events rest : List ChangeEvent} {last : ChangeEvent}
    (h : WalOrdered (events ++ [last] ++ rest)) :
    (rest.filter fun e => e.commitLsn ≤ last.commitLsn) = [] ↔
      ∀ next ∈ rest.head?, next.commitLsn ≠ last.commitLsn := by
  rw [List.filter_eq_nil_iff]
  simp only [decide_eq_true_eq]
  cases rest with
  | nil => simp
  | cons next rest =>
    obtain ⟨-, hrest, hcross⟩ := List.pairwise_append.mp h.increasing
    simp only [List.head?_cons, Option.mem_some_iff, forall_eq']
    constructor
    · intro hlater heq
      exact hlater next List.mem_cons_self heq.le
    · intro hne e he
      have hnext : last.commitLsn ≤ next.commitLsn :=
        hcross last (by simp) next List.mem_cons_self
      rcases List.mem_cons.mp he with rfl | he
      · omega
      · have hle : next.commitLsn ≤ e.commitLsn := (List.pairwise_cons.mp hrest).1 e he
        omega

/-- The highest LSN of a WAL-ordered batch is the commit LSN of its last event. -/
theorem max?_confirmLsn {batch : List ChangeEvent} {e : ChangeEvent} {lsn : ℕ}
    (h : WalOrdered (batch ++ [e]))
    (hmax : ((batch ++ [e]).map ChangeEvent.confirmLsn).max? = some lsn) : lsn = e.commitLsn := by
  have hconfirm : ∀ x ∈ batch ++ [e], x.confirmLsn = x.commitLsn :=
    fun x hx => if_pos (h.nonzero x hx)
  rw [List.max?_eq_some_iff] at hmax
  obtain ⟨hmem, hle⟩ := hmax
  obtain ⟨x, hx, rfl⟩ := List.mem_map.mp hmem
  have he : e ∈ batch ++ [e] := by simp
  apply le_antisymm
  · rw [hconfirm x hx]
    exact h.le_last x hx
  · rw [← hconfirm e he]
    exact hle _ (List.mem_map_of_mem he)

/-- A flush that reports an LSN has emptied the buffer, and reports its highest LSN. -/
theorem SnowflakeSink.flush_reports {cfg : Config} {sink : SnowflakeSink} {env : CallEnv} {lsn : ℕ}
    (h : (sink.flush cfg env).result = .ok (some lsn)) :
    (sink.buffer.map ChangeEvent.confirmLsn).max? = some lsn ∧
      (sink.flush cfg env).sink.buffer = [] := by
  refine ⟨?_, sink.flush_ok cfg env h⟩
  rw [SnowflakeSink.flush] at h
  split at h
  · cases h
  · dsimp only at h
    split at h
    · cases h
    · exact Except.ok.inj h

/-- A flush empties the buffer or leaves it. -/
theorem SnowflakeSink.flush_buffer_cases (cfg : Config) (sink : SnowflakeSink) (env : CallEnv) :
    (sink.flush cfg env).sink.buffer = [] ∨
      (sink.flush cfg env).sink.buffer = sink.buffer := by
  rw [SnowflakeSink.flush]
  split
  · exact Or.inr rfl
  · dsimp only
    split
    · exact Or.inr rfl
    · exact Or.inl rfl

/-- A call that reports an LSN has emptied a buffer that was not empty, and reports its highest LSN:
the buffer before the call, with the event just published. -/
theorem SinkCall.reports {cfg : Config} {sink : SnowflakeSink} {c : SinkCall} {lsn : ℕ}
    (h : (c.perform cfg sink).result = .ok (some lsn)) :
    ((sink.buffer ++ replicated (publishedBy [c])).map ChangeEvent.confirmLsn).max? = some lsn ∧
      (c.perform cfg sink).sink.buffer = [] := by
  cases c with
  | flush env =>
    have hnone : replicated (publishedBy [SinkCall.flush env]) = [] := rfl
    rw [hnone, List.append_nil]
    exact SnowflakeSink.flush_reports h
  | publish env event =>
    show ((sink.buffer ++ replicated [event]).map _).max? = _ ∧ _
    rw [perform] at h ⊢
    by_cases hmapped : IsMapped event.table
    · rw [replicated_mapped hmapped]
      rcases SnowflakeSink.publish_mapped cfg sink env hmapped with
        hpub | ⟨hpub, -⟩
      · rw [hpub] at h ⊢
        exact SnowflakeSink.flush_reports h
      · rw [hpub] at h
        cases h
    · rw [SnowflakeSink.publish_unmapped _ _ _ hmapped] at h
      cases h

/-- A call empties the buffer or only adds to it. -/
theorem SinkCall.buffer_cases (cfg : Config) (sink : SnowflakeSink) (c : SinkCall) :
    (c.perform cfg sink).sink.buffer = [] ∨
      (c.perform cfg sink).sink.buffer = sink.buffer ++ replicated (publishedBy [c]) := by
  cases c with
  | flush env =>
    refine (sink.flush_buffer_cases cfg env).imp id fun h => h.trans ?_
    exact (List.append_nil _).symm
  | publish env event =>
    show _ ∨ _ = sink.buffer ++ replicated [event]
    rw [perform]
    by_cases hmapped : IsMapped event.table
    · rw [replicated_mapped hmapped]
      rcases SnowflakeSink.publish_mapped cfg sink env hmapped with
        h | ⟨h, -⟩
      · rw [h]
        exact SnowflakeSink.flush_buffer_cases cfg _ env
      · rw [h]
        exact Or.inr rfl
    · rw [SnowflakeSink.publish_unmapped _ _ _ hmapped, replicated_unmapped hmapped]
      exact Or.inr (List.append_nil _).symm

/-- The buffer holds the last of the events published, whatever the attempts did. -/
theorem SinkRun.buffer_suffix (cfg : Config) (start : ℚ) (calls : List SinkCall) :
    (run cfg start calls).sink.buffer <:+ replicated (publishedBy calls) := by
  induction calls using List.reverseRecOn with
  | nil => exact List.suffix_refl []
  | append_singleton calls c ih =>
    rw [run_snoc, publishedBy_append, replicated_append]
    rcases c.buffer_cases cfg (run cfg start calls).sink with h | h
    · rw [call, h]
      exact List.nil_suffix
    · rw [call, h]
      obtain ⟨front, hfront⟩ := ih
      exact ⟨front, by rw [← List.append_assoc, hfront]⟩

/-- Without attempts nothing is ever written. -/
theorem SinkRun.written_of_no_attempts {cfg : Config} (h : cfg.maxRetries ≤ 0) (start : ℚ)
    (calls : List SinkCall) : (run cfg start calls).writes = [] := by
  induction calls using List.reverseRecOn with
  | nil => rfl
  | append_singleton calls c ih =>
    rw [run_snoc, call, ih, List.nil_append]
    exact c.writes_of_no_attempts h _

/-- **The reported LSN is the commit LSN of the last event published**: the batch written ends with
it. -/
theorem SinkRun.reported_last {cfg : Config} {start : ℚ} {calls : List SinkCall} {c : SinkCall}
    {lsn : ℕ} (hwal : WalOrdered (replicated (publishedBy (calls ++ [c]))))
    (hreport : (c.perform cfg (run cfg start calls).sink).result = .ok (some lsn)) :
    ∃ front last, replicated (publishedBy (calls ++ [c])) = front ++ [last] ∧
      lsn = last.commitLsn := by
  obtain ⟨hmax, -⟩ := SinkCall.reports hreport
  obtain ⟨front, hfront⟩ := buffer_suffix cfg start calls
  have hpub : replicated (publishedBy (calls ++ [c])) =
      front ++ ((run cfg start calls).sink.buffer ++ replicated (publishedBy [c])) := by
    rw [publishedBy_append, replicated_append, ← hfront, List.append_assoc]
  rcases List.eq_nil_or_concat
    ((run cfg start calls).sink.buffer ++ replicated (publishedBy [c])) with
    hnil | ⟨batch, last, hbatch⟩
  · rw [hnil] at hmax
    cases hmax
  · rw [List.concat_eq_append] at hbatch
    rw [hbatch] at hmax hpub
    refine ⟨front ++ batch, last, by rw [hpub, List.append_assoc], max?_confirmLsn ?_ hmax⟩
    rw [hpub] at hwal
    exact hwal.sublist (List.sublist_append_right front _)

/-- **The reported LSN is safe exactly when the cut lies between two transactions.**  A call returns
`lsn` after the stream was published up to some event, with `rest` still to come.  Every event
committed up to `lsn` has been written if and only if a write attempt is made at all and the next
event to be replicated does not belong to the transaction of the last one. -/
theorem reportedLsn_safe_iff (cfg : Config) (start : ℚ) (calls : List SinkCall) (c : SinkCall)
    (rest : List ChangeEvent) {lsn : ℕ} (hwal : WalOrdered (publishedBy (calls ++ [c]) ++ rest))
    (hreport : (c.perform cfg (SinkRun.run cfg start calls).sink).result = .ok (some lsn)) :
    WrittenUpTo lsn (publishedBy (calls ++ [c]) ++ rest)
        (writtenBatches (SinkRun.run cfg start (calls ++ [c])).writes).flatten ↔
      1 ≤ cfg.maxRetries ∧
        ∀ next ∈ (replicated rest).head?,
          ∀ last ∈ (replicated (publishedBy (calls ++ [c]))).getLast?,
            next.commitLsn ≠ last.commitLsn := by
  have hwal' : WalOrdered (replicated (publishedBy (calls ++ [c])) ++ replicated rest) := by
    rw [← replicated_append]
    exact hwal.replicated
  have hupTo : WalOrdered (replicated (publishedBy (calls ++ [c]))) :=
    hwal'.sublist (List.sublist_append_left _ _)
  obtain ⟨front, last, hpub, hlsn⟩ := SinkRun.reported_last hupTo hreport
  rw [hpub] at hwal' hupTo
  -- all that was published counts; what is still to come counts when it shares the transaction
  have hcounted : replicated ((publishedBy (calls ++ [c]) ++ rest).filter fun e =>
      e.commitLsn ≤ lsn) = front ++ [last] ++
        (replicated rest).filter fun e => e.commitLsn ≤ last.commitLsn := by
    rw [replicated_filter, replicated_append, hpub, List.filter_append, hlsn]
    congr 1
    exact List.filter_eq_self.mpr fun e he => decide_eq_true (hupTo.le_last e he)
  have hnext : (∀ next ∈ (replicated rest).head?,
      ∀ last' ∈ (replicated (publishedBy (calls ++ [c]))).getLast?,
        next.commitLsn ≠ last'.commitLsn) ↔
      (replicated rest).filter (fun e => e.commitLsn ≤ last.commitLsn) = [] := by
    rw [hwal'.filter_rest_eq_nil_iff, hpub, List.getLast?_concat]
    simp only [Option.mem_some_iff, forall_eq']
  rw [WrittenUpTo, hcounted, hnext]
  by_cases hretries : 1 ≤ cfg.maxRetries
  · have hempty := (SinkCall.reports hreport).2
    have hwritten := SinkRun.run_conserves hretries start (calls ++ [c])
    rw [SinkRun.run_snoc, SinkRun.call, hempty, List.append_nil, hpub] at hwritten
    rw [SinkRun.run_snoc, SinkRun.call, hwritten]
    constructor
    · intro hsub
      refine ⟨hretries, List.length_eq_zero_iff.mp ?_⟩
      have hlen := hsub.length_le
      rw [List.length_append] at hlen
      omega
    · rintro ⟨-, hnil⟩
      rw [hnil, List.append_nil]
  · rw [SinkRun.written_of_no_attempts (by omega)]
    constructor
    · intro hsub
      have hlen := hsub.length_le
      simp at hlen
    · exact fun h => absurd h.1 hretries

/-- A transaction of two events, flushed when it is complete. -/
theorem reportedLsn_safe_devices :
    WrittenUpTo 12
      (publishedBy ([.publish (sampleEnv true) (deviceEvent .c (deviceRow "1" "tv") 10 12)] ++
        [.publish (sampleEnv true) (deviceEvent .c (deviceRow "2" "tv") 11 12)]) ++
        [deviceEvent .d (deviceRow "1" "tv") 20 22])
      (writtenBatches (SinkRun.run ⟨2, 10, 5⟩ 0
        ([.publish (sampleEnv true) (deviceEvent .c (deviceRow "1" "tv") 10 12)] ++
          [.publish (sampleEnv true) (deviceEvent .c (deviceRow "2" "tv") 11 12)])).writes).flatten :=
  (reportedLsn_safe_iff ⟨2, 10, 5⟩ 0 _ _ _ ⟨by decide, by decide⟩ (by decide +kernel)).mpr (by decide)

/-- **With a batch size of one, the first event of a transaction reports the whole transaction.** -/
theorem reportedLsn_inside_transaction :
    let cfg : Config := ⟨1, 10, 5⟩
    let c : SinkCall := .publish (sampleEnv true) (deviceEvent .c (deviceRow "1" "tv") 10 12)
    let rest := [deviceEvent .c (deviceRow "2" "tv") 11 12]
    WalOrdered (publishedBy ([] ++ [c]) ++ rest) ∧
      (c.perform cfg (SinkRun.run cfg 0 []).sink).result = .ok (some 12) ∧
      ¬ WrittenUpTo 12 (publishedBy ([] ++ [c]) ++ rest)
        (writtenBatches (SinkRun.run cfg 0 ([] ++ [c])).writes).flatten := by
  refine ⟨⟨by decide, by decide⟩, by decide, fun h => ?_⟩
  exact absurd h.length_le (by decide)

/-! ### What a confirmed flush has written -/

/-- A flush that returns an LSN has completed a write of the whole buffer, and a flush without a
completed write raises and leaves the sink as it was. -/
def ConfirmsWrites (cfg : Config) (sink : SnowflakeSink) (env : CallEnv) : Prop :=
  (∀ lsn, (sink.flush cfg env).result = .ok (some lsn) →
      ∃ a : Attempt, a.succeeded = true ∧ (sink.buffer, a) ∈ (sink.flush cfg env).writes) ∧
    ((∀ w ∈ (sink.flush cfg env).writes, w.2.succeeded = false) →
      (sink.flush cfg env).result = .error .writeFailed ∧ (sink.flush cfg env).sink = sink)

/-- **A confirmed flush really wrote exactly when at least one attempt is configured.**  With
`SF_MAX_RETRIES ≤ 0` the loop body never runs, and what follows the loop forgets the buffer. -/
theorem flush_confirms_iff (cfg : Config) (sink : SnowflakeSink) (env : CallEnv)
    (h : sink.buffer ≠ []) : ConfirmsWrites cfg sink env ↔ 1 ≤ cfg.maxRetries := by
  constructor
  · rintro ⟨-, hraises⟩
    by_contra hretries
    have hnone : (sink.flush cfg env).writes = [] :=
      sink.flush_writes_of_no_attempts cfg env (by omega)
    have hraised := (hraises (by simp [hnone])).1
    have hattempt := ((sink.flush_error_iff cfg env).mp hraised).2.1
    omega
  · intro hretries
    rcases sink.flush_spec cfg env hretries h with ⟨failed, a, -, ha, hflush⟩ | ⟨failed, hfailed, hflush⟩
    · have hmem : (sink.buffer, a) ∈ (sink.flush cfg env).writes := by
        rw [hflush]
        exact List.mem_map_of_mem (by simp)
      refine ⟨fun lsn _ => ⟨a, ha, hmem⟩, fun hnone => ?_⟩
      have hfalse := hnone _ hmem
      rw [ha] at hfalse
      cases hfalse
    · rw [ConfirmsWrites, hflush]
      exact ⟨nofun, fun _ => ⟨rfl, rfl⟩⟩

/-- Five attempts, all of which fail. -/
theorem flush_confirms_devices :
    ConfirmsWrites ⟨500, 10, 5⟩ ⟨[deviceEvent .c (deviceRow "1" "tv") 10 12], 0⟩ (sampleEnv false) :=
  (flush_confirms_iff ⟨500, 10, 5⟩ ⟨[deviceEvent .c (deviceRow "1" "tv") 10 12], 0⟩ (sampleEnv false)
    (List.cons_ne_nil _ _)).mpr (by decide)

/-- **With `SF_MAX_RETRIES = 0` a flush reports LSN 12, has written nothing and forgets the event.** -/
theorem flush_without_attempts :
    let sink : SnowflakeSink := ⟨[deviceEvent .c (deviceRow "1" "tv") 10 12], 0⟩
    let flushed := sink.flush ⟨500, 10, 0⟩ (sampleEnv true)
    flushed.result = .ok (some 12) ∧ flushed.writes.length = 0 ∧ flushed.sink.buffer = [] ∧
      ¬ ConfirmsWrites ⟨500, 10, 0⟩ sink (sampleEnv true) := by
  refine ⟨by decide, by decide, by decide, fun h => ?_⟩
  have hraised := (h.2 (by decide)).1
  exact absurd hraised (by decide)

end PgSnowflakeCdc
