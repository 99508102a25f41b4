import PgSnowflakeCdc.Sink.WriteBatch

/-!
# The sink: buffering, flush triggers and the retry loop

`publish` buffers an event and flushes when the batch is full or the interval has elapsed; `flush`
writes the whole buffer with up to `SF_MAX_RETRIES` attempts and reports the highest LSN.  What
the outside decides about a call — the clock readings and the outcome of each write attempt — is
its environment (`CallEnv`).

* `flush_spec`, `publish_spec` — what one call does to the buffer and what it writes;
* `run_conserves` — over any sequence of calls, the written batches followed by the buffer are the
  published events of mapped tables.
-/

namespace PgSnowflakeCdc

open RowNumbering

/-! ### Configuration and environment -/

/-- `SF_BATCH_SIZE`, `SF_FLUSH_INTERVAL_S` and `SF_MAX_RETRIES`; `int()` accepts any integer. -/
structure Config where
  batchSize : ℤ
  flushInterval : ℚ
  maxRetries : ℤ

/-- The outcome of one `_write_batch` call: an exception after so many statements, or none; and the
row order of each MERGE that was executed. -/
structure Attempt where
  failedAfter : Option ℕ
  tie : Stmt → RowOrder

def Attempt.succeeded (a : Attempt) : Bool := a.failedAfter.isNone

/-- The statements an attempt at a batch executed. -/
def Attempt.executed (P : Platform) (a : Attempt) (events : List ChangeEvent) : List Stmt :=
  match a.failedAfter with
  | none => (writeBatch P events).1
  | some k => (writeBatch P events).1.take k

theorem Attempt.executed_subset (P : Platform) (a : Attempt) (events : List ChangeEvent) :
    a.executed P events ⊆ (writeBatch P events).1 := by
  rw [executed]
  split
  · exact fun _ h => h
  · exact List.take_subset _ _

/-- What a call meets: `time.monotonic()` when the triggers are checked and when the flush is over,
and the outcome of attempt 1, 2, …. -/
structure CallEnv where
  now : ℚ
  done : ℚ
  outcome : ℕ → Attempt

/-- The exception of the last attempt, re-raised. -/
inductive WriteError where
  | writeFailed : WriteError
deriving DecidableEq

/-- One of the attempts that a flush makes succeeds. -/
def CallEnv.Succeeds (cfg : Config) (env : CallEnv) : Prop :=
  ∃ i < cfg.maxRetries.toNat, (env.outcome (1 + i)).succeeded = true

instance (cfg : Config) (env : CallEnv) : Decidable (env.Succeeds cfg) :=
  inferInstanceAs (Decidable (∃ i < cfg.maxRetries.toNat, (env.outcome (1 + i)).succeeded = true))

/-! ### The sink -/

structure SnowflakeSink where
  buffer : List ChangeEvent
  lastFlush : ℚ

/-- `SnowflakeSink.__init__`. -/
def SnowflakeSink.new (now : ℚ) : SnowflakeSink := ⟨[], now⟩

/-- A call of the sink: the sink afterwards, the value returned or the exception raised, and the
write attempts made, each with the batch it was made for. -/
structure CallResult where
  sink : SnowflakeSink
  result : Except WriteError (Option ℕ)
  writes : List (List ChangeEvent × Attempt)

/-- The loop `for attempt in range(1, _MAX_RETRIES + 1)`: `left` rounds are left, the next one being
`attempt`.  The attempts made, and whether the loop ends by raising; the sleeps between them change
nothing that is modelled. -/
def retryLoop (maxRetries : ℤ) (outcome : ℕ → Attempt) :
    (left attempt : ℕ) → List Attempt × Except WriteError Unit
  | 0, _ => ([], .ok ())
  | left + 1, attempt =>
    if (outcome attempt).succeeded then ([outcome attempt], .ok ())
    else if (attempt : ℤ) < maxRetries then
      let rest := retryLoop maxRetries outcome left (attempt + 1)
      (outcome attempt :: rest.1, rest.2)
    else ([outcome attempt], .error .writeFailed)

/-- `e.commit_lsn if e.commit_lsn else e.lsn`. -/
def ChangeEvent.confirmLsn (e : ChangeEvent) : ℕ := if e.commitLsn ≠ 0 then e.commitLsn else e.lsn

/-- `event.table = normalize_pg_table(event.table)`. -/
def ChangeEvent.normalized (e : ChangeEvent) : ChangeEvent :=
  { e with table := normalizePgTable e.table }

namespace SnowflakeSink

/-- `_flush`. -/
def flush (cfg : Config) (sink : SnowflakeSink) (env : CallEnv) : CallResult :=
  if sink.buffer.isEmpty then ⟨{ sink with lastFlush := env.done }, .ok none, []⟩
  else
    let batch := sink.buffer
    let attempts := retryLoop cfg.maxRetries env.outcome cfg.maxRetries.toNat 1
    let writes := attempts.1.map fun a => (batch, a)
    match attempts.2 with
    | .error e => ⟨sink, .error e, writes⟩
    | .ok () => ⟨⟨[], env.done⟩, .ok (batch.map ChangeEvent.confirmLsn).max?, writes⟩

/-- `publish`. -/
def publish (cfg : Config) (sink : SnowflakeSink) (env : CallEnv) (event : ChangeEvent) :
    CallResult :=
  if ¬ IsMapped event.table then ⟨sink, .ok none, []⟩
  else
    let sink := { sink with buffer := sink.buffer ++ [event.normalized] }
    let elapsed := env.now - sink.lastFlush
    if cfg.batchSize ≤ sink.buffer.length ∨ cfg.flushInterval ≤ elapsed then sink.flush cfg env
    else ⟨sink, .ok none, []⟩

end SnowflakeSink

/-! ### One call -/

/-- The batches whose write succeeded. -/
def writtenBatches (writes : List (List ChangeEvent × Attempt)) : List (List ChangeEvent) :=
  (writes.filter (·.2.succeeded)).map Prod.fst

@[simp] theorem writtenBatches_nil : writtenBatches [] = [] := rfl

@[simp] theorem writtenBatches_append (xs ys : List (List ChangeEvent × Attempt)) :
    writtenBatches (xs ++ ys) = writtenBatches xs ++ writtenBatches ys := by
  rw [writtenBatches, List.filter_append, List.map_append, writtenBatches, writtenBatches]

/-- Failed attempts write nothing. -/
theorem writtenBatches_failed (batch : List ChangeEvent) {failed : List Attempt}
    (h : ∀ a ∈ failed, a.succeeded = false) :
    writtenBatches (failed.map fun a => (batch, a)) = [] := by
  rw [writtenBatches, List.map_eq_nil_iff, List.filter_eq_nil_iff]
  intro w hw
  obtain ⟨a, ha, rfl⟩ := List.mem_map.mp hw
  simp [h a ha]

/-- Failed attempts and then a successful one write their batch once. -/
theorem writtenBatches_completed (batch : List ChangeEvent) {failed : List Attempt} {a : Attempt}
    (hfailed : ∀ f ∈ failed, f.succeeded = false) (ha : a.succeeded = true) :
    writtenBatches ((failed ++ [a]).map fun a => (batch, a)) = [batch] := by
  rw [List.map_append, writtenBatches_append, writtenBatches_failed _ hfailed, List.nil_append]
  simp [writtenBatches, ha]

/-- **The retry loop** ends with its first success, or raises when no attempt succeeds.  The induction
is on the rounds left; `attempt + left` stays `maxRetries + 1`, so the loop never runs dry. -/
theorem retryLoop_spec (maxRetries : ℤ) (outcome : ℕ → Attempt) :
    ∀ left attempt : ℕ, 1 ≤ left → (attempt : ℤ) + left = maxRetries + 1 →
      (∃ failed a, retryLoop maxRetries outcome left attempt = (failed ++ [a], .ok ()) ∧
          (∀ f ∈ failed, f.succeeded = false) ∧ a.succeeded = true) ∨
        ∃ failed, retryLoop maxRetries outcome left attempt = (failed, .error .writeFailed) ∧
          ∀ f ∈ failed, f.succeeded = false
  | 0, _, hleft, _ => absurd hleft (by omega)
  | left + 1, attempt, _, hsum => by
    rw [retryLoop]
    by_cases hok : (outcome attempt).succeeded = true
    · rw [if_pos hok]
      exact Or.inl ⟨[], outcome attempt, rfl, by simp, hok⟩
    · rw [if_neg hok]
      have hfailed : (outcome attempt).succeeded = false := by simpa using hok
      by_cases hmore : (attempt : ℤ) < maxRetries
      · rw [if_pos hmore]
        rcases retryLoop_spec maxRetries outcome left (attempt + 1) (by omega) (by omega) with
          ⟨failed, a, hrest, hfs, ha⟩ | ⟨failed, hrest, hfs⟩
        · refine Or.inl ⟨outcome attempt :: failed, a, ?_, ?_, ha⟩
          · simp only [hrest, List.cons_append]
          · exact List.forall_mem_cons.mpr ⟨hfailed, hfs⟩
        · refine Or.inr ⟨outcome attempt :: failed, ?_, ?_⟩
          · simp only [hrest]
          · exact List.forall_mem_cons.mpr ⟨hfailed, hfs⟩
      · rw [if_neg hmore]
        exact Or.inr ⟨[outcome attempt], rfl, by simpa using hfailed⟩

/-- The loop raises exactly when it makes an attempt and every attempt fails. -/
theorem retryLoop_error_iff (maxRetries : ℤ) (outcome : ℕ → Attempt) :
    ∀ left attempt : ℕ, (attempt : ℤ) + left = maxRetries + 1 →
      ((retryLoop maxRetries outcome left attempt).2 = .error .writeFailed ↔
        0 < left ∧ ∀ i < left, (outcome (attempt + i)).succeeded = false)
  | 0, _, _ => by simp [retryLoop]
  | left + 1, attempt, hsum => by
    rw [retryLoop]
    by_cases hok : (outcome attempt).succeeded = true
    · rw [if_pos hok]
      refine iff_of_false nofun fun h => ?_
      have hfirst := h.2 0 (by omega)
      rw [Nat.add_zero, hok] at hfirst
      cases hfirst
    · have hfailed : (outcome attempt).succeeded = false := by simpa using hok
      rw [if_neg hok, Nat.forall_lt_succ_left']
      simp only [Nat.add_zero, hfailed, true_and, Nat.succ_pos]
      by_cases hmore : (attempt : ℤ) < maxRetries
      · rw [if_pos hmore, retryLoop_error_iff maxRetries outcome left (attempt + 1) (by omega)]
        have hleft : 0 < left := by omega
        simp only [hleft, true_and, Nat.add_assoc, Nat.add_comm 1]
      · have hleft : left = 0 := by omega
        rw [if_neg hmore, hleft]
        simp

namespace SnowflakeSink

variable (cfg : Config) (sink : SnowflakeSink) (env : CallEnv)

theorem flush_empty (h : sink.buffer = []) :
    sink.flush cfg env = ⟨{ sink with lastFlush := env.done }, .ok none, []⟩ := by
  rw [flush, h]
  rfl

/-- **A flush of a non-empty buffer** writes it with its first successful attempt and reports its
highest LSN, or raises and leaves the sink as it was. -/
theorem flush_spec (hretries : 1 ≤ cfg.maxRetries) (h : sink.buffer ≠ []) :
    (∃ (failed : List Attempt) (a : Attempt), (∀ f ∈ failed, f.succeeded = false) ∧ a.succeeded = true ∧
        sink.flush cfg env = ⟨⟨[], env.done⟩, .ok (sink.buffer.map ChangeEvent.confirmLsn).max?,
          (failed ++ [a]).map fun a => (sink.buffer, a)⟩) ∨
      ∃ failed : List Attempt, (∀ f ∈ failed, f.succeeded = false) ∧
        sink.flush cfg env =
          ⟨sink, .error .writeFailed, failed.map fun a => (sink.buffer, a)⟩ := by
  have hnot : ¬ sink.buffer.isEmpty = true := by simpa using h
  rcases retryLoop_spec cfg.maxRetries env.outcome cfg.maxRetries.toNat 1 (by omega) (by omega) with
    ⟨failed, a, hloop, hfs, ha⟩ | ⟨failed, hloop, hfs⟩
  · refine Or.inl ⟨failed, a, hfs, ha, ?_⟩
    rw [flush, if_neg hnot]
    simp only [hloop]
  · refine Or.inr ⟨failed, hfs, ?_⟩
    rw [flush, if_neg hnot]
    simp only [hloop]

/-- A write is attempted, and every attempt fails. -/
def AllAttemptsFail : Prop :=
  0 < cfg.maxRetries.toNat ∧ ∀ i < cfg.maxRetries.toNat, (env.outcome (1 + i)).succeeded = false

instance : Decidable (AllAttemptsFail cfg env) := inferInstanceAs (Decidable (_ ∧ _))

/-- **When a flush raises.** -/
theorem flush_error_iff :
    (sink.flush cfg env).result = .error .writeFailed ↔ sink.buffer ≠ [] ∧ AllAttemptsFail cfg env := by
  by_cases h : sink.buffer = []
  · rw [flush_empty cfg sink env h]
    simp [h]
  · have hnot : ¬ sink.buffer.isEmpty = true := by simpa using h
    have hloop : (retryLoop cfg.maxRetries env.outcome cfg.maxRetries.toNat 1).2 =
        .error .writeFailed ↔ AllAttemptsFail cfg env := by
      by_cases hretries : 0 ≤ cfg.maxRetries
      · exact retryLoop_error_iff _ _ _ 1 (by omega)
      · have hzero : cfg.maxRetries.toNat = 0 := by omega
        rw [AllAttemptsFail, hzero]
        simp [retryLoop]
    rw [← hloop, flush, if_neg hnot]
    dsimp only
    split
    · next e hresult => simp [h, hresult]
    · next hresult => simp [hresult]

/-- **A flush that succeeds, or has nothing to write,** leaves the buffer empty. -/
theorem flush_of_succeeds (h : sink.buffer ≠ [] → env.Succeeds cfg) :
    (sink.flush cfg env).sink.buffer = [] ∧
      ((sink.buffer = [] ∧ (sink.flush cfg env).writes = []) ∨
        ∃ (failed : List Attempt) (a : Attempt), a.succeeded = true ∧
          (sink.flush cfg env).writes = (failed ++ [a]).map fun a => (sink.buffer, a)) := by
  by_cases hempty : sink.buffer = []
  · rw [sink.flush_empty cfg env hempty]
    exact ⟨hempty, Or.inl ⟨hempty, rfl⟩⟩
  · obtain ⟨i, hi, hok⟩ := h hempty
    have hretries : 1 ≤ cfg.maxRetries := by omega
    rcases sink.flush_spec cfg env hretries hempty with ⟨failed, a, -, ha, hres⟩ | ⟨failed, -, hres⟩
    · rw [hres]
      exact ⟨rfl, Or.inr ⟨failed, a, ha, rfl⟩⟩
    · have hraise : (sink.flush cfg env).result = .error .writeFailed := by rw [hres]
      have hfail := ((sink.flush_error_iff cfg env).mp hraise).2.2 i hi
      rw [hok] at hfail
      cases hfail

/-- A flush that returns leaves the buffer empty. -/
theorem flush_ok {r : Option ℕ} (h : (sink.flush cfg env).result = .ok r) :
    (sink.flush cfg env).sink.buffer = [] := by
  rw [flush] at h ⊢
  split
  · next hempty => simpa using hempty
  · next hne =>
    rw [if_neg hne] at h
    dsimp only at h ⊢
    split at h
    · cases h
    · rfl

/-- Without attempts nothing is ever written. -/
theorem flush_writes_of_no_attempts (h : cfg.maxRetries ≤ 0) : (sink.flush cfg env).writes = [] := by
  have hzero : cfg.maxRetries.toNat = 0 := by omega
  rw [flush, hzero]
  split <;> rfl

/-- A flush moves events from the buffer to the written batches, or leaves them where they are. -/
theorem flush_conserves (hretries : 1 ≤ cfg.maxRetries) :
    (writtenBatches (sink.flush cfg env).writes).flatten ++ (sink.flush cfg env).sink.buffer =
      sink.buffer := by
  by_cases h : sink.buffer = []
  · rw [flush_empty cfg sink env h, h]
    rfl
  · rcases flush_spec cfg sink env hretries h with ⟨failed, a, hfs, ha, hflush⟩ |
      ⟨failed, hfs, hflush⟩
    · rw [hflush, writtenBatches_completed _ hfs ha]
      simp
    · rw [hflush, writtenBatches_failed _ hfs]
      rfl

theorem publish_unmapped {event : ChangeEvent} (h : ¬ IsMapped event.table) :
    sink.publish cfg env event = ⟨sink, .ok none, []⟩ := by
  rw [publish, if_pos h]

/-- **`publish` of a mapped event** appends it; then it flushes, or the batch is not yet full. -/
theorem publish_mapped {event : ChangeEvent} (h : IsMapped event.table) :
    sink.publish cfg env event =
        flush cfg { sink with buffer := sink.buffer ++ [event.normalized] } env ∨
      (sink.publish cfg env event =
          ⟨{ sink with buffer := sink.buffer ++ [event.normalized] }, .ok none, []⟩ ∧
        (sink.buffer.length : ℤ) + 1 < cfg.batchSize) := by
  rw [publish, if_neg (not_not_intro h)]
  dsimp only
  split
  · exact Or.inl rfl
  · next hidle =>
    refine Or.inr ⟨rfl, ?_⟩
    simp only [List.length_append, List.length_singleton, Nat.cast_add, Nat.cast_one, not_or,
      not_le] at hidle
    exact hidle.1

/-- The event just appended fills the batch, or the interval has elapsed. -/
def FlushDue : Prop :=
  cfg.batchSize ≤ sink.buffer.length + 1 ∨ cfg.flushInterval ≤ env.now - sink.lastFlush

instance : Decidable (FlushDue cfg sink env) := inferInstanceAs (Decidable (_ ∨ _))

/-- **When `publish` raises**: the event is of a mapped table, a flush is due and every attempt
fails. -/
theorem publish_error_iff (event : ChangeEvent) :
    (sink.publish cfg env event).result = .error .writeFailed ↔
      IsMapped event.table ∧ FlushDue cfg sink env ∧ AllAttemptsFail cfg env := by
  rw [publish]
  by_cases hmapped : IsMapped event.table
  · rw [if_neg (not_not_intro hmapped)]
    simp only [List.length_append, List.length_singleton, Nat.cast_add, Nat.cast_one]
    rw [FlushDue]
    split
    · next hdue =>
      rw [flush_error_iff]
      simp [hmapped, hdue]
    · next hidle => simp [hidle]
  · rw [if_pos hmapped]
    simp [hmapped]

end SnowflakeSink

/-! ### Runs of calls -/

/-- The events of mapped tables, as the sink buffers them. -/
def replicated (events : List ChangeEvent) : List ChangeEvent :=
  (events.filter fun e => IsMapped e.table).map ChangeEvent.normalized

@[simp] theorem replicated_nil : replicated [] = [] := rfl

@[simp] theorem replicated_append (xs ys : List ChangeEvent) :
    replicated (xs ++ ys) = replicated xs ++ replicated ys := by
  rw [replicated, List.filter_append, List.map_append, replicated, replicated]

theorem replicated_mapped {e : ChangeEvent} (h : IsMapped e.table) : replicated [e] = [e.normalized] := by
  rw [replicated, List.filter_cons_of_pos (by simpa using h), List.filter_nil, List.map_singleton]

theorem replicated_unmapped {e : ChangeEvent} (h : ¬ IsMapped e.table) : replicated [e] = [] := by
  rw [replicated, List.filter_cons_of_neg (by simpa using h), List.filter_nil, List.map_nil]

/-- A call on a sink. -/
inductive SinkCall where
  | publish (env : CallEnv) (event : ChangeEvent) : SinkCall
  | flush (env : CallEnv) : SinkCall

def SinkCall.env : SinkCall → CallEnv
  | .publish env _ => env
  | .flush env => env

def SinkCall.perform (cfg : Config) (sink : SnowflakeSink) : SinkCall → CallResult
  | .publish env event => sink.publish cfg env event
  | .flush env => sink.flush cfg env

/-- The events a list of calls publishes. -/
def publishedBy (calls : List SinkCall) : List ChangeEvent :=
  calls.filterMap fun
    | .publish _ event => some event
    | .flush _ => none

@[simp] theorem publishedBy_append (xs ys : List SinkCall) :
    publishedBy (xs ++ ys) = publishedBy xs ++ publishedBy ys :=
  List.filterMap_append

/-- A sink after some calls, and the write attempts made. -/
structure SinkRun where
  sink : SnowflakeSink
  writes : List (List ChangeEvent × Attempt)

/-- One more call, whether it returns or raises. -/
def SinkRun.call (cfg : Config) (r : SinkRun) (c : SinkCall) : SinkRun :=
  ⟨(c.perform cfg r.sink).sink, r.writes ++ (c.perform cfg r.sink).writes⟩

/-- Any sequence of calls on a new sink. -/
def SinkRun.run (cfg : Config) (start : ℚ) (calls : List SinkCall) : SinkRun :=
  calls.foldl (SinkRun.call cfg) ⟨.new start, []⟩

theorem SinkRun.run_snoc (cfg : Config) (start : ℚ) (calls : List SinkCall) (c : SinkCall) :
    SinkRun.run cfg start (calls ++ [c]) = (SinkRun.run cfg start calls).call cfg c := by
  rw [run, List.foldl_append, List.foldl_cons, List.foldl_nil, run]

/-- Without attempts no call writes anything. -/
theorem SinkCall.writes_of_no_attempts {cfg : Config} (h : cfg.maxRetries ≤ 0) (sink : SnowflakeSink)
    (c : SinkCall) : (c.perform cfg sink).writes = [] := by
  cases c with
  | flush env => exact SnowflakeSink.flush_writes_of_no_attempts _ _ _ h
  | publish env event =>
    rw [perform]
    by_cases hmapped : IsMapped event.table
    · rcases SnowflakeSink.publish_mapped cfg sink env hmapped with hpub | ⟨hpub, -⟩
      · rw [hpub]
        exact SnowflakeSink.flush_writes_of_no_attempts _ _ _ h
      · rw [hpub]
    · rw [SnowflakeSink.publish_unmapped _ _ _ hmapped]

/-- **One call conserves events**: what it writes, followed by the new buffer, is the old buffer
followed by what it publishes. -/
theorem SinkCall.conserves {cfg : Config} (hretries : 1 ≤ cfg.maxRetries) (sink : SnowflakeSink)
    (c : SinkCall) :
    (writtenBatches (c.perform cfg sink).writes).flatten ++ (c.perform cfg sink).sink.buffer =
      sink.buffer ++ replicated (publishedBy [c]) := by
  cases c with
  | flush env =>
    rw [perform, SnowflakeSink.flush_conserves _ _ _ hretries]
    exact (List.append_nil _).symm
  | publish env event =>
    show _ = sink.buffer ++ replicated [event]
    rw [perform]
    by_cases hmapped : IsMapped event.table
    · rw [replicated_mapped hmapped]
      rcases SnowflakeSink.publish_mapped cfg sink env hmapped with
        h | ⟨h, -⟩
      · rw [h, SnowflakeSink.flush_conserves _ _ _ hretries]
      · rw [h]
        rfl
    · rw [SnowflakeSink.publish_unmapped _ _ _ hmapped, replicated_unmapped hmapped]
      exact (List.append_nil _).symm

/-- **Runs conserve events.** -/
theorem SinkRun.run_conserves {cfg : Config} (hretries : 1 ≤ cfg.maxRetries) (start : ℚ)
    (calls : List SinkCall) :
    (writtenBatches (run cfg start calls).writes).flatten ++ (run cfg start calls).sink.buffer =
      replicated (publishedBy calls) := by
  induction calls using List.reverseRecOn with
  | nil => rfl
  | append_singleton calls c ih =>
    rw [run_snoc, call, writtenBatches_append, List.flatten_append, List.append_assoc,
      c.conserves hretries, ← List.append_assoc, ih, publishedBy_append, replicated_append]

/-- A call that writes the buffer through leaves less than a full batch. -/
theorem SinkCall.buffer_lt {cfg : Config} (sink : SnowflakeSink)
    {c : SinkCall} {r : Option ℕ} (hreturn : (c.perform cfg sink).result = .ok r)
    (hmapped : ∀ env event, c = .publish env event → IsMapped event.table) :
    ((c.perform cfg sink).sink.buffer.length : ℤ) < max cfg.batchSize 1 := by
  have hflush : ∀ (sink : SnowflakeSink) (env : CallEnv), (sink.flush cfg env).result = .ok r →
      ((sink.flush cfg env).sink.buffer.length : ℤ) < max cfg.batchSize 1 := by
    intro sink env hok
    rw [sink.flush_ok cfg env hok, List.length_nil]
    exact lt_max_of_lt_right Int.one_pos
  cases c with
  | flush env => exact hflush sink env hreturn
  | publish env event =>
    rw [perform] at hreturn ⊢
    rcases SnowflakeSink.publish_mapped cfg sink env
      (hmapped env event rfl) with h | ⟨h, hroom⟩
    · rw [h] at hreturn ⊢
      exact hflush _ env hreturn
    · rw [h]
      simp only [List.length_append, List.length_singleton, Nat.cast_add, Nat.cast_one]
      exact lt_max_of_lt_left hroom

/-- **The buffer conserves events over whole runs.**  After every call, returned or raised, the
written batches followed by the buffer are the published events of mapped tables, in order.  A
`flush`, and a `publish` of a mapped table, that returns normally leaves less than a full batch; a
`publish` of an unmapped table returns normally and leaves the sink as it was. -/
theorem buffer_conserves_events (cfg : Config) (hretries : 1 ≤ cfg.maxRetries) (start : ℚ)
    (calls : List SinkCall) (c : SinkCall) :
    let before := SinkRun.run cfg start calls
    let after := SinkRun.run cfg start (calls ++ [c])
    (writtenBatches after.writes).flatten ++ after.sink.buffer =
        replicated (publishedBy (calls ++ [c])) ∧
      (∀ r, (c.perform cfg before.sink).result = .ok r →
        (∀ env event, c = .publish env event → IsMapped event.table) →
        (after.sink.buffer.length : ℤ) < max cfg.batchSize 1) ∧
      (∀ env event, c = .publish env event → ¬ IsMapped event.table →
        (c.perform cfg before.sink).result = .ok none ∧ after = before) := by
  refine ⟨SinkRun.run_conserves hretries start _, fun r hreturn hmapped => ?_, ?_⟩
  · rw [SinkRun.run_snoc]
    exact c.buffer_lt _ hreturn hmapped
  · intro env event hc hunmapped
    subst hc
    rw [SinkRun.run_snoc, SinkRun.call, SinkCall.perform, SnowflakeSink.publish_unmapped _ _ _ hunmapped,
      List.append_nil]
    exact ⟨rfl, rfl⟩

/-- An environment in which every write attempt succeeds, or every one fails. -/
def sampleEnv (ok : Bool) : CallEnv :=
  ⟨0, 0, fun _ => ⟨if ok then none else some 0, fun _ => lastFirst 0⟩⟩

/-- Batches of two: the second `publish` raises, the next one writes all three events. -/
theorem buffer_conserves_events_retry :
    let calls : List SinkCall :=
      [.publish (sampleEnv true) (deviceEvent .c (deviceRow "1" "tv") 10 12),
        .publish (sampleEnv false) (deviceEvent .c (deviceRow "2" "tv") 11 12)]
    let c : SinkCall := .publish (sampleEnv true) (deviceEvent .d (deviceRow "1" "tv") 20 22)
    let after := SinkRun.run ⟨2, 10, 5⟩ 0 (calls ++ [c])
    (writtenBatches after.writes).flatten ++ after.sink.buffer =
      replicated (publishedBy (calls ++ [c])) :=
  (buffer_conserves_events ⟨2, 10, 5⟩ (by decide) 0 _ _).1

/-- After a `publish` that raised, a `publish` of an unmapped table returns normally and the buffer
still holds a full batch. -/
theorem unmapped_publish_keeps_full_batch :
    let cfg : Config := ⟨1, 10, 1⟩
    let before := SinkRun.run cfg 0
      [.publish (sampleEnv false) (deviceEvent .c (deviceRow "1" "tv") 10 12)]
    let c : SinkCall :=
      .publish (sampleEnv true) { deviceEvent .c (deviceRow "1" "tv") 11 12 with table := "orders" }
    (c.perform cfg before.sink).result = .ok none ∧
      ¬ ((c.perform cfg before.sink).sink.buffer.length : ℤ) < max cfg.batchSize 1 := by
  decide

end PgSnowflakeCdc
