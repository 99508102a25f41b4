import PgSnowflakeCdc.Service.Accounting
import PgSnowflakeCdc.Service.SourceTable
import PgSnowflakeCdc.Sink.Attempts

/-!
# End-to-end replication

One connection, from the bytes of the slot to the tables of the destination, in four layers:

* `Streaming` — the loop hands every polled change to the parser once, in order, and every event of
  a mapped table to the sink;
* `completedFlushes_run` — the sink's write attempts are flushes that succeed in the end;
* `applyStream_eq_changes` — the events of a stream change a table as its messages do;
* `replication_correct` — **the current-state tables are the initial tables with the row changes of
  the stream applied in WAL order.**
-/

namespace PgSnowflakeCdc

open OrderedDict RowNumbering Service

/-! ### The loop on one connection -/

/-- The connection is opened, the poll returns, and an attempt succeeds before the retries run out. -/
def Input.Steady (cfg : ServiceConfig) : Input → Prop
  | .signal => False
  | .proceed env => env.connects = true ∧ env.poll ≠ none ∧
    ∃ i < cfg.sink.maxRetries.toNat, (env.call.outcome (1 + i)).succeeded = true

instance (cfg : ServiceConfig) : DecidablePred (Input.Steady cfg)
  | .signal => isFalse not_false
  | .proceed _ => inferInstanceAs (Decidable (_ ∧ _ ≠ _ ∧ ∃ i < _, _))

theorem Input.Steady.retries {cfg : ServiceConfig} {i : Input} (h : i.Steady cfg) :
    1 ≤ cfg.sink.maxRetries := by
  cases i with
  | signal => exact h.elim
  | proceed env =>
    obtain ⟨-, -, n, hn, -⟩ := h
    omega

theorem Input.Steady.not_allAttemptsFail {cfg : ServiceConfig} {env : StepEnv}
    (h : (Input.proceed env).Steady cfg) : ¬ SnowflakeSink.AllAttemptsFail cfg.sink env.call := by
  obtain ⟨-, -, n, hn, hok⟩ := h
  intro hfail
  rw [hfail.2 n hn] at hok
  cases hok

/-- The points of control of an open connection, up to the shutdown. -/
def OnStream : Control → Prop
  | .connecting => True
  | .innerHead => True
  | .polling => True
  | .iterating _ => True
  | .idleFlush => True
  | _ => False

/-- The service on its first connection: every polled change up to the pending ones has been parsed,
and everything polled is held. -/
structure Streaming (P : Platform) (s : Service) : Prop where
  running : s.shutdown = false
  place : (s.control = .outerHead ∧ s.polled = []) ∨ OnStream s.control
  read : ∃ consumed, s.polled = consumed ++ s.pending ∧ s.parser = parserAfter P .new consumed
  decoded : s.decoded = decodedEvents P .new s.polled
  kept : held P s = replicated s.decoded

theorem streaming_start (P : Platform) (now : ℚ) : Streaming P (start now) where
  running := rfl
  place := Or.inl ⟨rfl, rfl⟩
  read := ⟨[], rfl, rfl⟩
  decoded := rfl
  kept := rfl

section Steps

variable {P : Platform} {cfg : ServiceConfig} {s : Service}

/-- Without a shutdown, an impossible timestamp or a failing flush, the `for` loop runs to its end. -/
theorem Streaming.dropped_eq_nil (h : Streaming P s) {i : Input} (hi : i.Steady cfg)
    (hparse : ∀ c ∈ s.polled, ¬ BeginOutOfRange c.2) : dropped P cfg s i = [] := by
  cases i with
  | signal => rfl
  | proceed env =>
    rw [dropped]
    split
    · next c rest hcontrol =>
      obtain ⟨consumed, hpolled, -⟩ := h.read
      have hc : c ∈ s.polled := by
        rw [hpolled, pending, hcontrol]
        simp
      rw [if_neg (by simp [h.running]), if_neg]
      rintro (hbegin | ⟨event, -, -, -, hfail⟩)
      · exact hparse c hc hbegin
      · exact hi.not_allAttemptsFail hfail
    · rfl

/-- A poll parses what it returns with the parser that has read everything before. -/
theorem Streaming.pollChanges (h : Streaming P s) (hnil : s.pending = []) (c : Change)
    (rest : List Change)
    (hkept : held P (s.pollChanges P cfg (some (c :: rest))) =
      replicated (s.pollChanges P cfg (some (c :: rest))).decoded) :
    Streaming P (s.pollChanges P cfg (some (c :: rest))) := by
  obtain ⟨consumed, hpolled, hparser⟩ := h.read
  have hall : s.parser = parserAfter P .new s.polled := by
    rw [hparser, hpolled, hnil, List.append_nil]
  refine ⟨h.running, Or.inr trivial, ⟨s.polled, rfl, hall⟩, ?_, hkept⟩
  show s.decoded ++ decodedEvents P s.parser (c :: rest) =
    decodedEvents P .new (s.polled ++ c :: rest)
  rw [decodedEvents_append, h.decoded, hall]

/-- One change of a polled list is parsed, and no exception leaves the list. -/
theorem Streaming.processChange (h : Streaming P s) {call : CallEnv} {c : Change}
    {rest : List Change} (hpending : s.pending = c :: rest) (hbegin : ¬ BeginOutOfRange c.2)
    (hfail : ¬ SnowflakeSink.AllAttemptsFail cfg.sink call)
    (hkept : held P (s.processChange P cfg call c rest) =
      replicated (s.processChange P cfg call c rest).decoded) :
    Streaming P (s.processChange P cfg call c rest) := by
  obtain ⟨consumed, hpolled, hparser⟩ := h.read
  have hread : s.polled = (consumed ++ [c]) ++ rest ∧
      (s.parser.parse P c.2 c.1).1 = parserAfter P .new (consumed ++ [c]) := by
    rw [hpolled, hpending, List.append_assoc, parserAfter_append, ← hparser]
    exact ⟨rfl, rfl⟩
  rcases processChange_cases P cfg s call c rest with
    ⟨e, hraise, -⟩ | ⟨event, -, -, hs⟩ | ⟨event, -, -, ⟨e, hraise, -⟩ | ⟨lsn, -, hs⟩⟩
  · exact absurd ((parse_error_iff _ _ _ _ _).mp hraise).2 hbegin
  · rw [hs] at hkept ⊢
    exact ⟨h.running, Or.inr trivial, ⟨consumed ++ [c], hread⟩, h.decoded, hkept⟩
  · cases e
    exact absurd ((SnowflakeSink.publish_error_iff _ _ _ _).mp hraise).2.2 hfail
  · rw [hs] at hkept ⊢
    exact ⟨h.running, Or.inr trivial, ⟨consumed ++ [c], hread⟩, h.decoded, hkept⟩

/-- **One step on the connection.** -/
theorem Streaming.step (h : Streaming P s) {i : Input} (hi : i.Steady cfg)
    (hparse : ∀ c ∈ s.polled, ¬ BeginOutOfRange c.2) : Streaming P (s.step P cfg i) := by
  have hkept : held P (s.step P cfg i) = replicated (s.step P cfg i).decoded := by
    obtain ⟨changes, -, hdecoded, hheld⟩ := step_accounts (P := P) hi.retries s i
    rw [h.dropped_eq_nil hi hparse, List.append_nil, h.kept] at hheld
    rw [hheld, hdecoded, replicated_append]
  cases i with
  | signal => exact hi.elim
  | proceed env =>
    have hfail := hi.not_allAttemptsFail
    obtain ⟨hconnects, hpoll, -⟩ := hi
    obtain ⟨consumed, hpolled, hparser⟩ := h.read
    rw [Service.step] at hkept ⊢
    cases hcontrol : s.control with
    | outerHead =>
      have hnone : s.polled = [] := by
        rcases h.place with hplace | hplace
        · exact hplace.2
        · rw [hcontrol] at hplace
          exact hplace.elim
      simp only [hcontrol, h.running, Bool.false_eq_true, if_false] at hkept ⊢
      exact ⟨h.running, Or.inr trivial, ⟨[], hnone, rfl⟩, h.decoded, hkept⟩
    | connecting =>
      simp only [hcontrol, hconnects, if_true] at hkept ⊢
      rw [pending, hcontrol] at hpolled
      exact ⟨h.running, Or.inr trivial, ⟨consumed, hpolled, hparser⟩, h.decoded, hkept⟩
    | innerHead =>
      simp only [hcontrol, h.running, Bool.false_eq_true, if_false] at hkept ⊢
      rw [pending, hcontrol] at hpolled
      exact ⟨h.running, Or.inr trivial, ⟨consumed, hpolled, hparser⟩, h.decoded, hkept⟩
    | polling =>
      have hnil : s.pending = [] := by rw [pending, hcontrol]
      simp only [hcontrol] at hkept ⊢
      cases henv : env.poll with
      | none => exact absurd henv hpoll
      | some changes =>
        rw [henv] at hkept
        cases changes with
        | nil =>
          rw [hnil] at hpolled
          exact ⟨h.running, Or.inr trivial, ⟨consumed, hpolled, hparser⟩, h.decoded, hkept⟩
        | cons c rest => exact h.pollChanges hnil c rest hkept
    | iterating changes =>
      rw [pending, hcontrol] at hpolled
      cases changes with
      | nil =>
        simp only [hcontrol] at hkept ⊢
        exact ⟨h.running, Or.inr trivial, ⟨consumed, hpolled, hparser⟩, h.decoded, hkept⟩
      | cons c rest =>
        simp only [hcontrol, h.running, Bool.false_eq_true, if_false] at hkept ⊢
        have hc : c ∈ s.polled := by
          rw [hpolled]
          simp
        have hpending : s.pending = c :: rest := by rw [pending, hcontrol]
        exact h.processChange hpending (hparse c hc) hfail hkept
    | idleFlush =>
      rw [pending, hcontrol] at hpolled
      simp only [hcontrol] at hkept ⊢
      rcases flushTo_cases cfg s env.call .innerHead (afterError cfg) with
        ⟨e, hraise, -⟩ | ⟨lsn, -, hs⟩
      · cases e
        exact absurd ((SnowflakeSink.flush_error_iff _ _ _).mp hraise).2 hfail
      · rw [hs] at hkept ⊢
        exact ⟨h.running, Or.inr trivial, ⟨consumed, hpolled, hparser⟩, h.decoded, hkept⟩
    | innerFlush => exact absurd h.place (by simp [hcontrol, OnStream])
    | finalFlush => exact absurd h.place (by simp [hcontrol, OnStream])
    | stopped => exact absurd h.place (by simp [hcontrol, OnStream])
    | crashed => exact absurd h.place (by simp [hcontrol, OnStream])

/-- **Runs on the connection.**  The induction is on the last input: what has been polled before it
is part of what has been polled after it. -/
theorem streaming_run (now : ℚ) {inputs : List Input} (hsteady : ∀ i ∈ inputs, i.Steady cfg)
    (hparse : ∀ c ∈ (run P cfg (start now) inputs).polled, ¬ BeginOutOfRange c.2) :
    Streaming P (run P cfg (start now) inputs) := by
  induction inputs using List.reverseRecOn with
  | nil => exact streaming_start P now
  | append_singleton inputs i ih =>
    have hi := hsteady i (by simp)
    rw [run_append] at hparse ⊢
    obtain ⟨changes, hpolled, -⟩ :=
      step_accounts (P := P) hi.retries (run P cfg (start now) inputs) i
    have hbefore : ∀ c ∈ (run P cfg (start now) inputs).polled, ¬ BeginOutOfRange c.2 := by
      intro c hc
      apply hparse
      show c ∈ ((run P cfg (start now) inputs).step P cfg i).polled
      rw [hpolled]
      exact List.mem_append_left _ hc
    exact (ih (fun j hj => hsteady j (List.mem_append_left _ hj)) hbefore).step hi hbefore

/-- The attempts on the connection are flushes that succeed in the end. -/
theorem completedFlushes_run (now : ℚ) {inputs : List Input}
    (hsteady : ∀ i ∈ inputs, i.Steady cfg) :
    CompletedFlushes (run P cfg (start now) inputs).writes := by
  refine run_invariant (I := fun s => CompletedFlushes s.writes) .nil fun i hi s hs => ?_
  have hi := hsteady i hi
  rcases step_calls P cfg s i with ⟨-, hwrites⟩ | ⟨env, c, rfl, henv, -, hwrites⟩
  · rw [hwrites]
    exact hs
  · rw [hwrites]
    exact hs.call hi.retries c (by rw [henv]; exact hi.not_allAttemptsFail)

end Steps

/-! ### The events of a stream -/

section Events

variable {P : Platform} {columnsOf : String → List String} {earlier : List Message}

/-- A message without a row change, or for a relation never announced, denotes no event. -/
theorem referenceEvent_eq_none {m : Message}
    (h : ∀ oid change, m.rowChange = some (oid, change) → latestRelation earlier oid = none)
    (lsn : ℕ) : referenceEvent P earlier lsn m = none := by
  cases m with
  | insert oid new => rw [referenceEvent, rowEvent, h oid _ rfl, Option.map_none]
  | update oid old new => rw [referenceEvent, rowEvent, h oid _ rfl, Option.map_none]
  | delete oid kind old => rw [referenceEvent, rowEvent, h oid _ rfl, Option.map_none]
  | _ => rfl

/-- A row change denotes an event of its relation with the row of its tuple. -/
theorem referenceEvent_of_rowChange {m : Message} {oid : UInt32} {change : RowChange}
    (hm : m.rowChange = some (oid, change)) {a : Announcement}
    (ha : latestRelation earlier oid = some a) (lsn : ℕ) :
    ∃ e, referenceEvent P earlier lsn m = some e ∧ e.table = a.table ∧
      e.image = some (tupleRow a.columns change.tuple) ∧
      e.isUpsert = change.isUpsert := by
  cases m with
  | insert oid' new =>
    cases hm
    rw [referenceEvent, rowEvent, ha]
    exact ⟨_, rfl, rfl, rfl, rfl⟩
  | update oid' old new =>
    cases hm
    rw [referenceEvent, rowEvent, ha]
    exact ⟨_, rfl, rfl, rfl, rfl⟩
  | delete oid' kind old =>
    cases hm
    rw [referenceEvent, rowEvent, ha]
    exact ⟨_, rfl, rfl, rfl, rfl⟩
  | _ => cases hm

theorem normalizePgTable_normalized (e : ChangeEvent) :
    normalizePgTable e.normalized.table = normalizePgTable e.table :=
  normalizePgTable_idem e.table

/-- The events of a message that reach the sink are events of mapped tables with their columns. -/
theorem ofMapped_of_message {m : Message} (hwf : m.WellFormed earlier)
    (hrep : m.Replicable P columnsOf earlier) (lsn : ℕ) :
    ∀ e ∈ replicated (referenceEvent P earlier lsn m).toList, e.OfMapped P columnsOf := by
  intro e he
  obtain ⟨e₀, he₀, rfl⟩ := List.mem_map.mp he
  rw [List.mem_filter, Option.mem_toList, decide_eq_true_eq] at he₀
  obtain ⟨hevent, hmapped⟩ := he₀
  by_cases hchange : ∃ oid change a, m.rowChange = some (oid, change) ∧
      latestRelation earlier oid = some a
  · obtain ⟨oid, change, a, hm, ha⟩ := hchange
    obtain ⟨e', he', htable, himage, -⟩ := referenceEvent_of_rowChange (P := P) hm ha lsn
    rw [he', Option.some.injEq] at hevent
    subst hevent
    have hlen := (hwf.tupleFor hm).width a ha
    refine ⟨?_, fun target htarget => ?_⟩
    · rw [IsMapped, normalizePgTable_normalized]
      exact hmapped
    · rw [normalizePgTable_normalized, htable] at htarget ⊢
      refine (hrep oid change a hm ha target htarget).ofTable hlen (e := e'.normalized) himage ?_
      rw [normalizePgTable_normalized, htable]
  · rw [referenceEvent_eq_none] at hevent
    · cases hevent
    · intro oid change hm
      cases ha : latestRelation earlier oid with
      | none => rfl
      | some a => exact absurd ⟨oid, change, a, hm, ha⟩ hchange

/-- **One message**: its event changes a table as the message does. -/
theorem applyMessage_eq_changes {m : Message} (hwf : m.WellFormed earlier)
    (hrep : m.Replicable P columnsOf earlier) {pgTable sfCurrent sfHistory : String}
    (hmap : tableMap.get? pgTable = some (sfCurrent, sfHistory)) (lsn : ℕ) (t : Table) :
    applyMessage P pgTable sfCurrent earlier m t =
      applyChanges P sfCurrent ((replicated (referenceEvent P earlier lsn m).toList).filter fun e =>
        normalizePgTable e.table = pgTable) t := by
  rw [applyMessage]
  cases hm : m.rowChange with
  | none =>
    rw [referenceEvent_eq_none (by simp [hm])]
    rfl
  | some p =>
    obtain ⟨oid, change⟩ := p
    dsimp only
    cases ha : latestRelation earlier oid with
    | none =>
      rw [referenceEvent_eq_none (by simp [hm, ha])]
      rfl
    | some a =>
      obtain ⟨e, he, htable, himage, hop⟩ := referenceEvent_of_rowChange (P := P) hm ha lsn
      have hlen := (hwf.tupleFor hm).width a ha
      rw [he, Option.toList_some]
      dsimp only
      by_cases hname : normalizePgTable a.table = pgTable
      · have hmapped : IsMapped e.table := by
          rw [IsMapped, htable, hname]
          exact Dict.mem_keys_of_get? hmap
        have hgroup : normalizePgTable e.normalized.table = pgTable := by
          rw [normalizePgTable_normalized, htable, hname]
        have hchange := hrep oid change a hm ha (sfCurrent, sfHistory) (by rw [hname]; exact hmap)
        rw [if_pos hname, replicated_mapped hmapped,
          List.filter_cons_of_pos (by simpa using hgroup), List.filter_nil]
        exact (hchange.applyChange_eq hlen (e := e.normalized) himage hop t).symm
      · rw [if_neg hname]
        have hnone : (replicated [e]).filter (fun e => normalizePgTable e.table = pgTable) = [] := by
          rw [List.filter_eq_nil_iff]
          intro e' he'
          obtain ⟨e₀, he₀, rfl⟩ := List.mem_map.mp he'
          rw [List.mem_singleton.mp (List.mem_of_mem_filter he₀), normalizePgTable_normalized, htable]
          simpa using hname
        rw [hnone]
        rfl

end Events

/-! ### The stream -/

section Stream

variable {P : Platform} {columnsOf : String → List String}

/-- The events a stream denotes. -/
def streamEvents (P : Platform) (earlier : List Message) (ms : List (ℕ × Message)) :
    List ChangeEvent :=
  (referenceEvents P earlier ms).filterMap id

theorem streamEvents_cons (P : Platform) (earlier : List Message) (lsn : ℕ) (m : Message)
    (ms : List (ℕ × Message)) :
    streamEvents P earlier ((lsn, m) :: ms) =
      (referenceEvent P earlier lsn m).toList ++ streamEvents P (m :: earlier) ms := by
  rw [streamEvents, referenceEvents, List.filterMap_cons, streamEvents]
  cases referenceEvent P earlier lsn m <;> rfl

theorem ofMapped_of_stream {earlier : List Message} {ms : List (ℕ × Message)}
    (h : ReplicableStream P columnsOf earlier ms) :
    ∀ e ∈ replicated (streamEvents P earlier ms), e.OfMapped P columnsOf := by
  induction ms generalizing earlier with
  | nil => exact nofun
  | cons p ms ih =>
    obtain ⟨lsn, m⟩ := p
    obtain ⟨hwf, hrep, hrest⟩ := h
    rw [streamEvents_cons, replicated_append]
    exact List.forall_mem_append.mpr ⟨ofMapped_of_message hwf hrep lsn, ih hrest⟩

/-- **The events of a stream change a table as its messages do.** -/
theorem applyStream_eq_changes {pgTable sfCurrent sfHistory : String}
    (hmap : tableMap.get? pgTable = some (sfCurrent, sfHistory)) {earlier : List Message}
    {ms : List (ℕ × Message)} (h : ReplicableStream P columnsOf earlier ms) (t : Table) :
    applyStream P pgTable sfCurrent earlier ms t =
      applyChanges P sfCurrent ((replicated (streamEvents P earlier ms)).filter fun e =>
        normalizePgTable e.table = pgTable) t := by
  induction ms generalizing earlier t with
  | nil => rfl
  | cons p ms ih =>
    obtain ⟨lsn, m⟩ := p
    obtain ⟨hwf, hrep, hrest⟩ := h
    rw [applyStream, ih hrest, applyMessage_eq_changes hwf hrep hmap lsn, streamEvents_cons,
      replicated_append, List.filter_append, applyChanges, applyChanges, applyChanges,
      Replay.run_append]

/-- What the parser makes of an encoded stream. -/
theorem decodedEvents_encodeStream {ms : List (ℕ × Message)} (h : WellFormedStream [] ms) :
    decodedEvents P .new (encodeStream ms) = streamEvents P [] ms := by
  rw [decodedEvents, feed_encode_from ms (tracks_new P) h, List.filterMap_map]
  rfl

/-- No payload of an encoded stream makes `parse` raise. -/
theorem parsable_encodeStream {ms : List (ℕ × Message)} {earlier : List Message}
    {parser : PgOutputParser} (htracks : Tracks P earlier parser)
    (h : WellFormedStream earlier ms) : ∀ c ∈ encodeStream ms, ¬ BeginOutOfRange c.2 := by
  induction ms generalizing earlier parser with
  | nil => exact nofun
  | cons p ms ih =>
    obtain ⟨lsn, m⟩ := p
    obtain ⟨hevent, htracks'⟩ := parse_encode htracks h.1 lsn
    refine List.forall_mem_cons.mpr ⟨fun hbegin => ?_, ih htracks' h.2⟩
    have hraise := (parse_error_iff P parser m.encode lsn .overflowError).mpr ⟨rfl, hbegin⟩
    rw [hevent] at hraise
    cases hraise

end Stream

/-! ### From the slot to the tables -/

/-- **End-to-end replication.**  The service has polled the encoding of a stream over one connection,
in polls and flushes of any sizes, and has written everything it holds; failed attempts executed any
prefix of their statements, and no flushed batch touches a key of the table twice.  Then the
current-state table holds the rows of the initial table with the row changes of the stream applied
in WAL order. -/
theorem replication_correct (P : Platform) (cfg : ServiceConfig) (columnsOf : String → List String)
    (ms : List (ℕ × Message)) (hstream : ReplicableStream P columnsOf [] ms) (now : ℚ)
    (inputs : List Input) (hsteady : ∀ i ∈ inputs, i.Steady cfg)
    (hpolled : (run P cfg (start now) inputs).polled = encodeStream ms)
    (hpending : (run P cfg (start now) inputs).pending = [])
    (hbuffer : (run P cfg (start now) inputs).sink.buffer = [])
    {pgTable sfCurrent sfHistory : String}
    (hmap : tableMap.get? pgTable = some (sfCurrent, sfHistory))
    (honce : ∀ batch ∈ writtenBatches (run P cfg (start now) inputs).writes,
      TouchedOnce P pgTable sfCurrent batch) (st : Store) :
    (applyWrites P (run P cfg (start now) inputs).writes st sfCurrent).Perm
      (applyStream P pgTable sfCurrent [] ms (st sfCurrent)) := by
  have hwf := hstream.wellFormed
  have hstreaming : Streaming P (run P cfg (start now) inputs) := by
    apply streaming_run now hsteady
    rw [hpolled]
    exact parsable_encodeStream (tracks_new P) hwf
  -- everything the stream denotes has been written
  have hwritten : (writtenBatches (run P cfg (start now) inputs).writes).flatten =
      replicated (streamEvents P [] ms) := by
    have hkept := hstreaming.kept
    rwa [held_of_pending_nil hpending, hbuffer, List.append_nil, hstreaming.decoded, hpolled,
      decodedEvents_encodeStream hwf] at hkept
  have hevents : ∀ batch ∈ writtenBatches (run P cfg (start now) inputs).writes, ∀ e ∈ batch,
      e.OfMapped P columnsOf := by
    intro batch hbatch e he
    apply ofMapped_of_stream hstream
    rw [← hwritten]
    exact List.mem_flatten.mpr ⟨batch, hbatch, he⟩
  rw [applyStream_eq_changes hmap hstream, ← hwritten]
  exact applyWrites_perm_changes (completedFlushes_run now hsteady) hevents hmap honce st

/-- Two inserts, then an update and a delete of the same devices. -/
def changedDevices : List (ℕ × Message) :=
  deviceStream ++ [(104, .update 7 none [.text "1", .text "hifi"]),
    (105, .delete 7 .key [.text "2", .null])]

/-- A step whose first write attempt fails behind the MERGE and whose second one succeeds. -/
def retriedStep (changes : List Change) : Input :=
  .proceed ⟨true, some changes, ⟨0, 0, fun n => ⟨if n = 1 then some 1 else none, fun _ => lastFirst 0⟩⟩⟩

/-- Two polls, and two flushes of two events each. -/
theorem replication_correct_devices :
    let inputs := List.replicate 3 (retriedStep []) ++
      List.replicate 6 (retriedStep (encodeStream (changedDevices.take 3))) ++
      List.replicate 5 (retriedStep (encodeStream (changedDevices.drop 3)))
    let s := run .ascii ⟨⟨2, 10, 5⟩, 5, 120⟩ (start 0) inputs
    (applyWrites .ascii s.writes (fun _ => []) "CUSTOMER_DEVICES").Perm
      (applyStream .ascii "customer_devices" "CUSTOMER_DEVICES" [] changedDevices []) := by
  have hmap : tableMap.get? "customer_devices" =
      some ("CUSTOMER_DEVICES", "CUSTOMER_DEVICES_HISTORY") := by decide
  exact replication_correct .ascii ⟨⟨2, 10, 5⟩, 5, 120⟩ (fun _ => ["id", "label"]) changedDevices
    (by decide +kernel) 0 _ (by decide +kernel) (by decide +kernel) (by decide +kernel)
    (by decide +kernel) hmap (by decide +kernel) _

end PgSnowflakeCdc
