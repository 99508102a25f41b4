import PgSnowflakeCdc.Service.Fleet
import Mathlib.Algebra.BigOperators.Pi
import Mathlib.Data.Fintype.Basic

/-!
# Deployments

What any number of processes make of the transactions they share, however they are started, stopped,
terminated and killed, and however their statements interleave.

* `State.consumed` — the changes that the slot has moved past;
* `every_change_once` — **every one of them is in exactly one place**: written by one process, in its
  buffer, in its polled list, dropped by it, or in an answer that arrived nowhere;
* `written_once_iff` — **exactly these changes have been written, each once, if and only if there is
  nothing in the other places**;
* `history_of_deployment` — **the history table then tells every state of the source**, whoever wrote what
  and in which order.
-/

namespace PgSnowflakeCdc

open RowNumbering Service

namespace Fleet

variable {ι σ ε α : Type} [DecidableEq ι] {P : Platform} {cfg : ServiceConfig} {batchSize : ℤ}
  {server : SlotServer σ ε α} {plugin : Plugin P α}

/-! ### Where the changes are -/

/-- The changes of mapped tables in the transactions that the slot has moved past. -/
def State.consumed (server : SlotServer σ ε α) (plugin : Plugin P α) (s : State ι σ α) :
    List ChangeEvent :=
  match s.created, server.position s.server with
  | some c, some p => plugin.events (((server.log s.server).take p).drop c)
  | _, _ => []

omit [DecidableEq ι] in
theorem consumed_of_delivered {s : State ι σ α}
    (h : server.Delivered s.server s.created (s.handed.map Prod.snd).flatten) :
    s.consumed server plugin = plugin.events (s.handed.map Prod.snd).flatten := by
  rw [SlotServer.Delivered] at h
  rw [State.consumed]
  cases hp : server.position s.server with
  | none =>
      rw [hp] at h
      rw [h.1, h.2]
      rfl
  | some p =>
      rw [hp] at h
      obtain ⟨c, -, hcreated, hhanded⟩ := h
      rw [hcreated, hhanded]

section Accounts

variable [Fintype ι]

/-- What has been handed out, by receiver. -/
theorem events_handed (plugin : Plugin P α) (handed : List (Option ι × List α)) :
    (∑ i, (plugin.events ((handed.filter fun d => d.1 = some i).map Prod.snd).flatten :
        Multiset ChangeEvent)) +
      (plugin.events ((handed.filter fun d => d.1 = none).map Prod.snd).flatten :
        Multiset ChangeEvent) = plugin.events (handed.map Prod.snd).flatten := by
  induction handed with
  | nil => simp
  | cons d handed ih =>
      obtain ⟨receiver, txs⟩ := d
      rw [List.map_cons, List.flatten_cons, Plugin.events_append, ← Multiset.coe_add, ← ih]
      cases receiver with
      | none =>
          have hnone : ((((none, txs) :: handed).filter fun d => d.1 = none).map Prod.snd).flatten =
              txs ++ ((handed.filter fun d => d.1 = none).map Prod.snd).flatten := by simp
          rw [hnone, Plugin.events_append, ← Multiset.coe_add, add_left_comm]
          simp
      | some j =>
          have hsum : ∀ i, (plugin.events ((((some j, txs) :: handed).filter
              fun d => d.1 = some i).map Prod.snd).flatten : Multiset ChangeEvent) =
                (if j = i then (plugin.events txs : Multiset ChangeEvent) else 0) +
                  plugin.events ((handed.filter fun d => d.1 = some i).map Prod.snd).flatten := by
            intro i
            by_cases hi : j = i
            · simp [hi]
            · simp [hi]
          simp only [hsum, Finset.sum_add_distrib, Finset.sum_ite_eq, Finset.mem_univ, if_true]
          simp [add_assoc]

/-- What the processes hold and have lost, with what arrived nowhere, is what the slot has moved past. -/
theorem Sound.accounts {now : ι → ℚ} {s : State ι σ α} (h : Sound P cfg server plugin now s)
    (hretries : 1 ≤ cfg.sink.maxRetries) :
    (∑ i, (held P (s.process i) ++ lost P cfg (.start (now i)) (s.met i) : Multiset ChangeEvent)) +
        (plugin.events s.unanswered.flatten : Multiset ChangeEvent) = s.consumed server plugin := by
  rw [consumed_of_delivered h.delivered, ← events_handed plugin s.handed]
  refine congrArg (· + _) (Finset.sum_congr rfl fun i _ => ?_)
  have haccounts := start_accounts (P := P) hretries (now i) (s.met i)
  rw [← h.ran i, h.decoded i] at haccounts
  exact Multiset.coe_eq_coe.mpr haccounts

/-- **Every change in exactly one place.**  In every run of the fleet the changes of mapped tables in the
transactions that the slot has moved past are, each of them once, written by a process, in the buffer of
its sink, in its polled list, dropped by it, or in an answer that arrived nowhere. -/
theorem every_change_once (server : SlotServer σ ε α) (plugin : Plugin P α)
    (hretries : 1 ≤ cfg.sink.maxRetries) (now : ι → ℚ) (first : σ) (actions : List (Action ι ε)) :
    let s := run P cfg batchSize server plugin (start server now first) actions
    (∑ i, ((writtenBatches (s.process i).writes).flatten ++ (s.process i).sink.buffer ++
          replicated (decodedEvents P (s.process i).parser (s.process i).pending) ++
          lost P cfg (.start (now i)) (s.met i) : Multiset ChangeEvent)) +
        (plugin.events s.unanswered.flatten : Multiset ChangeEvent) = s.consumed server plugin := by
  intro s
  have h : Sound P cfg server plugin now s := sound_run now first actions
  exact h.accounts hretries

end Accounts

theorem every_change_once_rolling :
    (∑ i, ((writtenBatches (deployed.process i).writes).flatten ++ (deployed.process i).sink.buffer ++
          replicated (decodedEvents .numeric (deployed.process i).parser (deployed.process i).pending) ++
          lost .numeric oneAtATime (.start 0) (deployed.met i) : Multiset ChangeEvent)) +
        ((Plugin.announcing .numeric).events deployed.unanswered.flatten : Multiset ChangeEvent) =
      deployed.consumed messageServer (.announcing .numeric) :=
  every_change_once messageServer (.announcing .numeric) (by decide) (fun _ => 0) ⟨false, [], []⟩
    rollingDeployment

/-! ### What a step writes -/

/-- **A step of the fleet** is a step of one process, or of none. -/
theorem step_cases (P : Platform) (cfg : ServiceConfig) (batchSize : ℤ) (server : SlotServer σ ε α)
    (plugin : Plugin P α) (s : State ι σ α) (a : Action ι ε) :
    ((step P cfg batchSize server plugin s a).process = s.process ∧
        (step P cfg batchSize server plugin s a).writes = s.writes) ∨
      ∃ i input, (step P cfg batchSize server plugin s a).process =
          Function.update s.process i ((s.process i).step P cfg input) ∧
        (step P cfg batchSize server plugin s a).writes = s.writes ++
          ((s.process i).step P cfg input).writes.drop (s.process i).writes.length := by
  cases a with
  | signal i =>
      rw [step]
      split
      · exact Or.inl ⟨rfl, rfl⟩
      · exact Or.inr ⟨i, .signal, rfl, rfl⟩
  | proceed i env call =>
      rw [step]
      split
      · exact Or.inl ⟨rfl, rfl⟩
      · split
        · rw [State.connecting]
          split
          · exact Or.inl ⟨rfl, rfl⟩
          · exact Or.inr ⟨i, _, rfl, rfl⟩
          · exact Or.inr ⟨i, _, rfl, rfl⟩
        · rw [State.polling]
          split
          · exact Or.inr ⟨i, _, rfl, rfl⟩
          · exact Or.inr ⟨i, _, rfl, rfl⟩
        · exact Or.inr ⟨i, _, rfl, rfl⟩
  | crash i => exact Or.inl ⟨rfl, rfl⟩
  | progress env => exact Or.inl ⟨rfl, rfl⟩

/-- The attempts of a step of `run`. -/
theorem writes_step (P : Platform) (cfg : ServiceConfig) (s : Service) (input : Input) :
    (s.step P cfg input).writes =
      s.writes ++ (s.step P cfg input).writes.drop s.writes.length := by
  rcases step_calls P cfg s input with ⟨-, h⟩ | ⟨env, c, -, -, -, h⟩
  · rw [h, List.drop_length, List.append_nil]
  · rw [h, List.drop_left]

/-- **The attempts of the fleet are those of its processes.** -/
theorem written_run [Fintype ι] (now : ι → ℚ) (first : σ) (actions : List (Action ι ε)) :
    let s := run P cfg batchSize server plugin (start server now first) actions
    ((writtenBatches s.writes).flatten : Multiset ChangeEvent) =
      ∑ i, ((writtenBatches (s.process i).writes).flatten : Multiset ChangeEvent) := by
  refine Replay.run_invariant (P := fun s : State ι σ α =>
    ((writtenBatches s.writes).flatten : Multiset ChangeEvent) =
      ∑ i, ((writtenBatches (s.process i).writes).flatten : Multiset ChangeEvent)) _ ?_
      fun a _ s hs => ?_
  · have hnone : ∀ i, (writtenBatches ((start server now first : State ι σ α).process i).writes).flatten =
        [] := fun _ => rfl
    simp only [hnone, Multiset.coe_nil, Finset.sum_const_zero]
    rfl
  · rcases step_cases P cfg batchSize server plugin s a with ⟨hprocess, hwrites⟩ | ⟨i, input, hprocess, hwrites⟩
    · rw [hprocess, hwrites, hs]
    · have hextra := writes_step P cfg (s.process i) input
      generalize ((s.process i).step P cfg input).writes.drop (s.process i).writes.length = extra
        at hextra hwrites
      have hsum : ∀ j, ((writtenBatches (Function.update s.process i
            ((s.process i).step P cfg input) j).writes).flatten : Multiset ChangeEvent) =
          ((writtenBatches (s.process j).writes).flatten : Multiset ChangeEvent) +
            if j = i then ((writtenBatches extra).flatten : Multiset ChangeEvent) else 0 := by
        intro j
        by_cases hj : j = i
        · rw [hj, Function.update_self, hextra, writtenBatches_append, List.flatten_append, if_pos rfl,
            Multiset.coe_add]
        · rw [Function.update_of_ne hj, if_neg hj, add_zero]
      rw [hprocess, hwrites, writtenBatches_append, List.flatten_append, ← Multiset.coe_add, hs]
      simp only [hsum, Finset.sum_add_distrib, Finset.sum_ite_eq', Finset.mem_univ, if_true]

/-! ### Deployments that have written everything -/

/-- There is nothing in the other places: every buffer is empty, no change of a mapped table is left in a
polled list or has been dropped with one, and none was in an answer that arrived nowhere. -/
structure NothingLeft (P : Platform) (cfg : ServiceConfig) (plugin : Plugin P α) (now : ι → ℚ)
    (s : State ι σ α) : Prop where
  buffer : ∀ i, (s.process i).sink.buffer = []
  pending : ∀ i, replicated (decodedEvents P (s.process i).parser (s.process i).pending) = []
  keeps : ∀ i, StepsKeep P cfg (.start (now i)) (s.met i)
  answered : plugin.events s.unanswered.flatten = []

/-- **Written once.**  The processes together have written exactly the changes of the transactions that
the slot has moved past, each of them once, if and only if there is nothing in the other places. -/
theorem written_once_iff [Fintype ι] (server : SlotServer σ ε α) (plugin : Plugin P α)
    (hretries : 1 ≤ cfg.sink.maxRetries) (now : ι → ℚ) (first : σ) (actions : List (Action ι ε)) :
    let s := run P cfg batchSize server plugin (start server now first) actions
    (writtenBatches s.writes).flatten.Perm (s.consumed server plugin) ↔ NothingLeft P cfg plugin now s := by
  intro s
  have h : Sound P cfg server plugin now s := sound_run now first actions
  have haccounts := h.accounts hretries
  have hwritten : ((writtenBatches s.writes).flatten : Multiset ChangeEvent) =
      ∑ i, ((writtenBatches (s.process i).writes).flatten : Multiset ChangeEvent) :=
    written_run now first actions
  -- what a process has not written
  let rest (i : ι) : List ChangeEvent := (s.process i).sink.buffer ++
    replicated (decodedEvents P (s.process i).parser (s.process i).pending) ++
    lost P cfg (.start (now i)) (s.met i)
  have hsum : (∑ i, (held P (s.process i) ++ lost P cfg (.start (now i)) (s.met i) :
        Multiset ChangeEvent)) =
      ((writtenBatches s.writes).flatten : Multiset ChangeEvent) +
        ∑ i, (rest i : Multiset ChangeEvent) := by
    rw [hwritten, ← Finset.sum_add_distrib]
    refine Finset.sum_congr rfl fun i _ => ?_
    rw [Multiset.coe_add, held, List.append_assoc, List.append_assoc, ← List.append_assoc _ _ (lost ..)]
  rw [hsum, add_assoc] at haccounts
  rw [← Multiset.coe_eq_coe, ← haccounts, left_eq_add, add_eq_zero, Finset.sum_eq_zero_iff]
  simp only [rest, Finset.mem_univ, forall_const, Multiset.coe_eq_zero, List.append_eq_nil_iff,
    lost_eq_nil_iff]
  constructor
  · rintro ⟨hrest, hanswered⟩
    exact ⟨fun i => (hrest i).1.1, fun i => (hrest i).1.2, fun i => (hrest i).2, hanswered⟩
  · rintro ⟨hbuffer, hpending, hkeeps, hanswered⟩
    exact ⟨fun i => ⟨⟨hbuffer i, hpending i⟩, hkeeps i⟩, hanswered⟩

theorem nothingLeft_deployed :
    NothingLeft .numeric oneAtATime (.announcing .numeric) (fun _ => 0) deployed where
  buffer := by decide +kernel
  pending := by decide +kernel
  keeps := by decide +kernel
  answered := by decide +kernel

theorem written_once_iff_rolling :
    (writtenBatches deployed.writes).flatten.Perm (deployed.consumed messageServer (.announcing .numeric)) ↔
      NothingLeft .numeric oneAtATime (.announcing .numeric) (fun _ => 0) deployed :=
  written_once_iff messageServer (.announcing .numeric) (by decide) (fun _ => 0) ⟨false, [], []⟩
    rollingDeployment

/-! ### The history table -/

/-- What a process has attempted it has written, or it is in its buffer. -/
theorem attempted_run (hretries : 1 ≤ cfg.sink.maxRetries) (now : ℚ) (inputs : List Input) :
    Attempted (Service.run P cfg (.start now) inputs).writes
      (Service.run P cfg (.start now) inputs).sink.buffer := by
  refine Service.run_invariant (I := fun s => Attempted s.writes s.sink.buffer)
    (fun w hw => absurd hw List.not_mem_nil) fun i _ s hs => ?_
  rcases step_calls P cfg s i with ⟨hsink, hwrites⟩ | ⟨env, c, -, -, hsink, hwrites⟩
  · rw [hsink, hwrites]
    exact hs
  · rw [hsink, hwrites]
    exact hs.call hretries c

/-- Every attempt is one of a process. -/
theorem mem_writes_run (now : ι → ℚ) (first : σ) (actions : List (Action ι ε)) :
    ∀ w ∈ (run P cfg batchSize server plugin (start server now first) actions).writes,
      ∃ i, w ∈ ((run P cfg batchSize server plugin (start server now first) actions).process i).writes := by
  refine Replay.run_invariant (P := fun s : State ι σ α =>
    ∀ w ∈ s.writes, ∃ i, w ∈ (s.process i).writes) _ (fun w hw => absurd hw List.not_mem_nil)
      fun a _ s hs w hw => ?_
  rcases step_cases P cfg batchSize server plugin s a with ⟨hprocess, hwrites⟩ | ⟨i, input, hprocess, hwrites⟩
  · rw [hwrites] at hw
    rw [hprocess]
    exact hs w hw
  · have hextra := writes_step P cfg (s.process i) input
    rw [hwrites] at hw
    rw [hprocess]
    rcases List.mem_append.mp hw with hw | hw
    · obtain ⟨j, hj⟩ := hs w hw
      refine ⟨j, ?_⟩
      by_cases hji : j = i
      · rw [hji] at hj
        rw [hji, Function.update_self, hextra]
        exact List.mem_append_left _ hj
      · rwa [Function.update_of_ne hji]
    · refine ⟨i, ?_⟩
      rw [Function.update_self, hextra]
      exact List.mem_append_right _ hw

/-- **When every buffer is empty, everything attempted has been written**, whatever failed on the way. -/
theorem allWritten_run [Fintype ι] (server : SlotServer σ ε α) (plugin : Plugin P α)
    (hretries : 1 ≤ cfg.sink.maxRetries) (now : ι → ℚ) (first : σ) (actions : List (Action ι ε))
    (hbuffer : ∀ i,
      ((run P cfg batchSize server plugin (start server now first) actions).process i).sink.buffer = []) :
    AllWritten (run P cfg batchSize server plugin (start server now first) actions).writes := by
  intro w hw e he
  obtain ⟨i, hi⟩ := mem_writes_run now first actions w hw
  have hsound : Sound P cfg server plugin now
      (run P cfg batchSize server plugin (start server now first) actions) := sound_run now first actions
  have hattempted := attempted_run (P := P) hretries (now i)
    ((run P cfg batchSize server plugin (start server now first) actions).met i)
  rw [← hsound.ran i, hbuffer i] at hattempted
  have hmem := hattempted.allWritten w hi e he
  rw [← Multiset.mem_coe, written_run now first actions, Multiset.mem_sum]
  exact ⟨i, Finset.mem_univ i, hmem⟩

/-- Changes as a log makes them to a table: they fit the table, and those of one key ascend. -/
structure LogFor (P : Platform) (columnsOf : String → List String) (pgTable sfCurrent : String)
    (events : List ChangeEvent) : Prop where
  mapped : ∀ e ∈ events, e.OfMapped P columnsOf
  size : ∀ e ∈ events, e.lsn < 2 ^ 64
  ordered : LsnsAscend P sfCurrent (events.filter fun e => normalizePgTable e.table = pgTable)

/-- **The history of a deployment.**  There is nothing left in the buffers, in the polled lists, in
answers that got lost, and no list has been left early.  Then, however the processes have shared the
transactions, in whatever order they have written them and whatever failed on the way, the history table
tells for every LSN the state that the changes up to there make of the empty table. -/
theorem history_of_deployment [Fintype ι] (server : SlotServer σ ε α) (plugin : Plugin P α)
    (hretries : 1 ≤ cfg.sink.maxRetries) (now : ι → ℚ) (first : σ) (actions : List (Action ι ε))
    (hnothing : NothingLeft P cfg plugin now
      (run P cfg batchSize server plugin (start server now first) actions))
    {columnsOf : String → List String} {pgTable sfCurrent sfHistory : String}
    (hmap : tableMap.get? pgTable = some (sfCurrent, sfHistory))
    (hschema : HistorySchema P sfCurrent sfHistory)
    (hplain : ∀ c ∈ columnsOf pgTable, pgColToSf P c ∉ auditColumns)
    (hlog : LogFor P columnsOf pgTable sfCurrent
      ((run P cfg batchSize server plugin (start server now first) actions).consumed server plugin))
    {lsn : ℕ} (hlsn : lsn < 2 ^ 64) {o : RowOrder}
    (ho : o.Respects (keyOf (pkOf sfCurrent)) (LaterFirst P) (upToLsn P sfHistory lsn
      (applyWrites P (run P cfg batchSize server plugin (start server now first) actions).writes
        (fun _ => []) sfHistory))) :
    let s := run P cfg batchSize server plugin (start server now first) actions
    (stateAsOf P sfCurrent sfHistory o lsn (applyWrites P s.writes (fun _ => []) sfHistory)).Perm
      (applyChanges P sfCurrent (((s.consumed server plugin).filter
        fun e => normalizePgTable e.table = pgTable).filter (·.lsn ≤ lsn)) []) := by
  intro s
  have hwritten : (writtenBatches s.writes).flatten.Perm (s.consumed server plugin) :=
    (written_once_iff server plugin hretries now first actions).mpr hnothing
  have hall : AllWritten s.writes :=
    allWritten_run server plugin hretries now first actions hnothing.buffer
  have hevents : ∀ e ∈ (writtenBatches s.writes).flatten, e.OfMapped P columnsOf :=
    fun e he => hlog.mapped e (hwritten.mem_iff.mp he)
  have htable := ChangeEvent.OfMapped.ofTable_of_mem_group hlog.mapped hmap
  refine stateAsOf_perm hmap hschema htable (fun e he => hlog.size e (List.mem_of_mem_filter he))
    (fun r => ?_) hlsn hplain hlog.ordered ho
  have hsame := hwritten.filter fun e => normalizePgTable e.table = pgTable
  rw [mem_trail_iff hevents hmap hall, historyImages, historyImages]
  exact (hsame.filterMap _).mem_iff

theorem consumed_deployed : deployed.consumed messageServer (.announcing .numeric) =
    [deviceEvent .c (deviceRow "1" "tv") 102 500, deviceEvent .c (deviceRow "2" "radio") 112 510] := by
  decide +kernel

theorem logFor_deployed : LogFor .numeric (fun _ => ["id", "label"]) "customer_devices" "CUSTOMER_DEVICES"
    (deployed.consumed messageServer (.announcing .numeric)) where
  mapped := by
    rw [consumed_deployed]
    simp [deviceEvent_ofMapped]
  size := by
    rw [consumed_deployed]
    simp [deviceEvent]
  ordered := by
    rw [consumed_deployed]
    decide

theorem writtenBatches_deployed : writtenBatches deployed.writes =
    [[deviceEvent .c (deviceRow "2" "radio") 112 510], [deviceEvent .c (deviceRow "1" "tv") 102 500]] := by
  decide +kernel

/-- The two devices have keys of their own: the order of their rows is free. -/
theorem respects_deployed (o : RowOrder) (lsn : ℕ) (hlsn : lsn < 2 ^ 64) :
    o.Respects (keyOf (pkOf "CUSTOMER_DEVICES")) (LaterFirst .numeric)
      (upToLsn .numeric "CUSTOMER_DEVICES_HISTORY" lsn
        (applyWrites .numeric deployed.writes (fun _ => []) "CUSTOMER_DEVICES_HISTORY")) := by
  have hall : AllWritten deployed.writes :=
    allWritten_run messageServer (.announcing .numeric) (by decide) (fun _ => 0) ⟨false, [], []⟩
      rollingDeployment nothingLeft_deployed.buffer
  have hevents : ∀ e ∈ (writtenBatches deployed.writes).flatten,
      e.OfMapped .numeric fun _ => ["id", "label"] := by
    rw [writtenBatches_deployed]
    simp [deviceEvent_ofMapped]
  have hwritten : writtenTo "customer_devices" deployed.writes =
      [deviceEvent .c (deviceRow "2" "radio") 112 510, deviceEvent .c (deviceRow "1" "tv") 102 500] := by
    rw [writtenTo, writtenBatches_deployed]
    decide
  refine respects_of_touchedOnce mapped_devices historySchema_numeric
    (ofTable_of_written hevents mapped_devices) ?_ (mem_trail_iff hevents mapped_devices hall) hlsn ?_ o
  · rw [hwritten]
    simp [deviceEvent]
  · rw [hwritten]
    decide

/-- The state before the second device came, although its row was the first one. -/
theorem history_of_deployment_rolling :
    (stateAsOf .numeric "CUSTOMER_DEVICES" "CUSTOMER_DEVICES_HISTORY" (lastFirst 0) 105
        (applyWrites .numeric deployed.writes (fun _ => []) "CUSTOMER_DEVICES_HISTORY")).Perm
      (applyChanges .numeric "CUSTOMER_DEVICES"
        (((deployed.consumed messageServer (.announcing .numeric)).filter
          fun e => normalizePgTable e.table = "customer_devices").filter (·.lsn ≤ 105)) []) :=
  history_of_deployment messageServer (.announcing .numeric) (by decide) (fun _ => 0) ⟨false, [], []⟩
    rollingDeployment nothingLeft_deployed mapped_devices historySchema_numeric (by decide)
    logFor_deployed (by decide) (respects_deployed (lastFirst 0) 105 (by decide))

end Fleet

end PgSnowflakeCdc
