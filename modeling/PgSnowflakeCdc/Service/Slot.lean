import PgSnowflakeCdc.Service.Loop

/-!
# The connection and the slot (`pg_replication.py`)

What `cdc_connection` and `poll_changes` ask of PostgreSQL, statement by statement, and what is known
of the other side.  PostgreSQL is a parameter: whatever does what the documentation says of a
replication slot.

* `Query`, `Phase` — the statements, and `cdc_connection` from one to the next;
* `SlotServer` — PostgreSQL as its documentation has it;
* `SlotServer.Moves`, `moves_execute`, `moves_progress` — what can happen to the slot;
* `SlotServer.isSome_of_yields` — **a connection is yielded only where there is a slot**;
* `SlotServer.consumed`, `Delivered` — what the slot moves past, and the account of it along a run;
* `SlotServer.waiting` — a slot that hands out what waits behind it.
-/

namespace PgSnowflakeCdc

/-! ### Statements -/

/-- What the service asks of PostgreSQL on a connection of `cdc_connection`, with its opening. -/
inductive Query where
  | connect : Query
  /-- `SELECT active_pid FROM pg_replication_slots …`. -/
  | activePid : Query
  | terminateBackend (pid : ℕ) : Query
  /-- `SELECT slot_name FROM pg_replication_slots …`. -/
  | slotName : Query
  | createSlot : Query
  /-- `pg_logical_slot_get_binary_changes`, with `upto_nchanges`. -/
  | getChanges (batchSize : ℤ) : Query
deriving DecidableEq

/-- What a statement returns when it does not raise.  A call on the slot returns transactions, as the
output plugin writes them. -/
abbrev Query.Row (α : Type) : Query → Type
  | .connect => Unit
  | .activePid => Option (Option ℕ)
  | .terminateBackend _ => Bool
  | .slotName => Bool
  | .createSlot => Unit
  | .getChanges _ => List α

/-- Where `cdc_connection` stands: the statement that is next. -/
inductive Phase where
  | connecting : Phase
  /-- `_release_stale_slot_backend`, at its first statement. -/
  | releasing : Phase
  | terminating (pid : ℕ) : Phase
  /-- `_ensure_slot_sql`, at its first statement. -/
  | checking : Phase
  | creating : Phase
deriving DecidableEq

abbrev Phase.query : Phase → Query
  | .connecting => .connect
  | .releasing => .activePid
  | .terminating pid => .terminateBackend pid
  | .checking => .slotName
  | .creating => .createSlot

/-- How `cdc_connection` goes on. -/
inductive Opening where
  | next (phase : Phase) : Opening
  /-- `yield conn`. -/
  | yields : Opening
  | raises : Opening
deriving DecidableEq

/-- `cdc_connection` behind a statement, which returns a row or raises (`none`). -/
def Phase.answered {α : Type} : (phase : Phase) → Option (phase.query.Row α) → Opening
  | .connecting, some _ => .next .releasing
  | .connecting, none => .raises
  | .releasing, some (some (some pid)) => .next (.terminating pid)
  | .releasing, some _ => .next .checking
  | .releasing, none => .raises
  -- what this statement raises is caught
  | .terminating _, _ => .next .checking
  | .checking, some true => .yields
  | .checking, some false => .next .creating
  | .checking, none => .raises
  | .creating, some _ => .yields
  | .creating, none => .raises

/-! ### The server -/

/-- PostgreSQL with the slot of the service, as far as its documentation goes.  `σ` are its states and `ε`
is what decides how things go there; `execute` performs a statement, all at once, since a slot serves one
call at a time, and `progress` is whatever happens between two statements.  The transactions of the source
are committed one after the other.

* A statement that looks at the slot or terminates a backend consumes nothing.
* The slot is created at the end of the log, unless there is one already; the catalog shows it.
* A call on the slot takes whole transactions, from where the slot stands, and the slot moves behind them;
  it may raise nevertheless, when the answer is lost.
* In between transactions commit, and calls come to their end whose process is gone.  The slot is not
  dropped, and the server does not crash (it might return the slot to an earlier position). -/
structure SlotServer (σ ε α : Type) where
  log : σ → List α
  /-- How many transactions the slot is behind; `none` when there is no slot. -/
  position : σ → Option ℕ
  execute : σ → ε → (query : Query) → σ × Option (query.Row α)
  progress : σ → ε → σ
  position_le : ∀ {s p}, position s = some p → p ≤ (log s).length
  log_execute : ∀ s env query, log (execute s env query).1 = log s
  position_looking : ∀ s env query, query ≠ .createSlot → (∀ n, query ≠ .getChanges n) →
    position (execute s env query).1 = position s
  slotName_true : ∀ s env, (execute s env .slotName).2 = some true → (position s).isSome
  position_createSlot : ∀ s env, position (execute s env .createSlot).1 = position s ∨
    position s = none ∧ position (execute s env .createSlot).1 = some (log s).length
  createSlot_returns : ∀ s env, (execute s env .createSlot).2 = some () →
    (position (execute s env .createSlot).1).isSome
  getChanges_absent : ∀ s env n, position s = none →
    position (execute s env (.getChanges n)).1 = none ∧ (execute s env (.getChanges n)).2 = none
  getChanges_present : ∀ s env n p, position s = some p →
    ∃ txs, txs <+: (log s).drop p ∧
      position (execute s env (.getChanges n)).1 = some (p + txs.length) ∧
      ∀ rows ∈ (execute s env (.getChanges n)).2, rows = txs
  log_progress : ∀ s env, log s <+: log (progress s env)
  progress_absent : ∀ s env, position s = none → position (progress s env) = none
  progress_present : ∀ s env p, position s = some p → ∃ p', p ≤ p' ∧ position (progress s env) = some p'

namespace SlotServer

variable {σ ε α : Type} (server : SlotServer σ ε α)

/-- The log grows, and the slot stays where it is, moves forward, or comes into being. -/
structure Moves (s s' : σ) : Prop where
  log : server.log s <+: server.log s'
  present : ∀ p, server.position s = some p → ∃ p', p ≤ p' ∧ server.position s' = some p'

/-- The transactions that the slot moves past. -/
def consumed (s s' : σ) : List α :=
  match server.position s, server.position s' with
  | some p, some p' => ((server.log s').drop p).take (p' - p)
  | _, _ => []

theorem moves_execute (s : σ) (env : ε) (query : Query) :
    server.Moves s (server.execute s env query).1 := by
  refine ⟨(server.log_execute s env query).symm ▸ List.prefix_rfl, fun p hp => ?_⟩
  cases query with
  | createSlot =>
      rcases server.position_createSlot s env with h | ⟨h, -⟩
      · exact ⟨p, le_rfl, h.trans hp⟩
      · rw [hp] at h
        cases h
  | getChanges n =>
      obtain ⟨txs, -, h, -⟩ := server.getChanges_present s env n p hp
      exact ⟨p + txs.length, Nat.le_add_right _ _, h⟩
  | connect | activePid | terminateBackend pid | slotName =>
      exact ⟨p, le_rfl, (server.position_looking s env _ (by simp) (by simp)).trans hp⟩

theorem moves_progress (s : σ) (env : ε) : server.Moves s (server.progress s env) :=
  ⟨server.log_progress s env, fun p hp => server.progress_present s env p hp⟩

variable {server}

/-- **What a call on the slot returns is what the slot moves past.** -/
theorem consumed_getChanges {s : σ} {env : ε} {n : ℤ} {txs : List α}
    (h : (server.execute s env (.getChanges n)).2 = some txs) :
    server.consumed s (server.execute s env (.getChanges n)).1 = txs := by
  cases hp : server.position s with
  | none =>
      rw [(server.getChanges_absent s env n hp).2] at h
      cases h
  | some p =>
      obtain ⟨txs', hprefix, hposition, hrows⟩ := server.getChanges_present s env n p hp
      obtain rfl := hrows txs h
      rw [consumed, hp, hposition, server.log_execute]
      dsimp only
      rw [Nat.add_sub_cancel_left, ← List.prefix_iff_eq_take.mp hprefix]

/-- **`cdc_connection` yields where there is a slot**, which it has found or created. -/
theorem isSome_of_yields {s : σ} {env : ε} {phase : Phase}
    (h : phase.answered (server.execute s env phase.query).2 = .yields) :
    (server.position (server.execute s env phase.query).1).isSome := by
  cases phase with
  | connecting =>
      cases hrow : (server.execute s env .connect).2 with
      | none => simp [hrow, Phase.answered] at h
      | some row => simp [hrow, Phase.answered] at h
  | releasing =>
      rcases hrow : (server.execute s env .activePid).2 with _ | _ | _ | pid
      · simp [hrow, Phase.answered] at h
      · simp [hrow, Phase.answered] at h
      · simp [hrow, Phase.answered] at h
      · simp [hrow, Phase.answered] at h
  | terminating pid => simp [Phase.answered] at h
  | checking =>
      rcases hrow : (server.execute s env .slotName).2 with _ | _ | _
      · simp [hrow, Phase.answered] at h
      · simp [hrow, Phase.answered] at h
      · rw [server.position_looking s env .slotName (by simp) (by simp)]
        exact server.slotName_true s env hrow
  | creating =>
      cases hrow : (server.execute s env .createSlot).2 with
      | none => simp [hrow, Phase.answered] at h
      | some row => exact server.createSlot_returns s env hrow

/-! ### The account -/

variable (server)

/-- The account of the slot: where it stood first, and all it has moved past since then, in order. -/
def Delivered (s : σ) (created : Option ℕ) (handed : List α) : Prop :=
  match server.position s with
  | none => created = none ∧ handed = []
  | some p => ∃ c ≤ p, created = some c ∧ handed = ((server.log s).take p).drop c

variable {server}

theorem delivered_start (s : σ) : server.Delivered s (server.position s) [] := by
  rw [Delivered]
  cases hp : server.position s with
  | none => exact ⟨rfl, rfl⟩
  | some p => exact ⟨p, le_rfl, rfl, (List.drop_eq_nil_of_le (List.length_take_le _ _)).symm⟩

/-- What is taken where the slot stands continues what was taken before. -/
theorem drop_take_append {log : List α} {c p p' : ℕ} (hc : c ≤ p) (hp : p ≤ p') (hlen : p ≤ log.length) :
    (log.take p).drop c ++ (log.drop p).take (p' - p) = (log.take p').drop c := by
  rw [show p' = p + (p' - p) by omega, List.take_add, List.drop_append_of_le_length,
    Nat.add_sub_cancel_left]
  rw [List.length_take]
  omega

/-- **The account goes on**, whatever happens at the server. -/
theorem Delivered.moves {s s' : σ} {created : Option ℕ} {handed : List α}
    (h : server.Delivered s created handed) (hmoves : server.Moves s s') :
    server.Delivered s' (created <|> server.position s') (handed ++ server.consumed s s') := by
  rw [Delivered] at h ⊢
  cases hp : server.position s with
  | none =>
      rw [hp] at h
      obtain ⟨rfl, rfl⟩ := h
      have hnone : server.consumed s s' = [] := by rw [consumed, hp]
      rw [hnone]
      exact delivered_start s'
  | some p =>
      rw [hp] at h
      obtain ⟨c, hc, rfl, rfl⟩ := h
      obtain ⟨p', hle, hp'⟩ := hmoves.present p hp
      obtain ⟨later, hlater⟩ := hmoves.log
      have hlen := server.position_le hp
      rw [hp']
      refine ⟨c, hc.trans hle, rfl, ?_⟩
      rw [consumed, hp, hp']
      dsimp only
      rw [← drop_take_append hc hle (by rw [← hlater, List.length_append]; omega), ← hlater,
        List.take_append_of_le_length hlen]

end SlotServer

/-! ### A server -/

/-- A log and a slot on it: what the slot is past, or what there was before it, and what waits. -/
structure SlotState (α : Type) where
  slot : Bool
  past : List α
  waiting : List α

/-- Whether answers arrive, which backend is inside a call on the slot at the moment, and what commits. -/
structure SlotEnv (α : Type) where
  answers : Bool
  active : Option ℕ
  commits : List α

/-- The transactions of a call: it ends when the rows reach `upto_nchanges`, looked at behind every
transaction. -/
def uptoChanges {α : Type} (size : α → ℕ) (limit : ℤ) : ℕ → List α → List α
  | _, [] => []
  | rows, tx :: txs =>
    if limit ≤ rows + size tx then [tx] else tx :: uptoChanges size limit (rows + size tx) txs

theorem uptoChanges_front {α : Type} (size : α → ℕ) (limit : ℤ) (rows : ℕ) (txs : List α) :
    uptoChanges size limit rows txs <+: txs := by
  induction txs generalizing rows with
  | nil => exact List.prefix_rfl
  | cons tx txs ih =>
      rw [uptoChanges]
      split
      · exact List.prefix_append [tx] txs
      · exact (List.prefix_cons_inj tx).mpr (ih _)

namespace SlotState

variable {α : Type}

def position (s : SlotState α) : Option ℕ := if s.slot then some s.past.length else none

/-- One statement.  `size` tells how many rows a transaction decodes to. -/
def execute (size : α → ℕ) (s : SlotState α) (env : SlotEnv α) :
    (query : Query) → SlotState α × Option (query.Row α)
  | .connect => (s, if env.answers then some () else none)
  | .activePid => (s, if env.answers then some (if s.slot then some env.active else none) else none)
  | .terminateBackend _ => (s, if env.answers then some true else none)
  | .slotName => (s, if env.answers then some s.slot else none)
  | .createSlot =>
    if s.slot then (s, none)
    else (⟨true, s.past ++ s.waiting, []⟩, if env.answers then some () else none)
  | .getChanges n =>
    if s.slot then
      let txs := uptoChanges size n 0 s.waiting
      (⟨true, s.past ++ txs, s.waiting.drop txs.length⟩, if env.answers then some txs else none)
    else (s, none)

end SlotState

/-- **A server that does what is documented**: calls hand out what waits behind the slot. -/
def SlotServer.waiting {α : Type} (size : α → ℕ) : SlotServer (SlotState α) (SlotEnv α) α where
  log s := s.past ++ s.waiting
  position := SlotState.position
  execute := SlotState.execute size
  progress s env := { s with waiting := s.waiting ++ env.commits }
  position_le := by
    intro s p h
    rw [SlotState.position] at h
    split at h
    · rw [List.length_append, ← Option.some.inj h]
      omega
    · cases h
  log_execute s env query := by
    cases query with
    | createSlot =>
        rw [SlotState.execute]
        split
        · rfl
        · exact List.append_nil _
    | getChanges n =>
        rw [SlotState.execute]
        split
        · show s.past ++ uptoChanges size n 0 s.waiting ++ s.waiting.drop _ = s.past ++ s.waiting
          rw [List.append_assoc, List.prefix_iff_eq_append.mp (uptoChanges_front size n 0 s.waiting)]
        · rfl
    | connect | activePid | terminateBackend pid | slotName => rfl
  position_looking s env query hcreate hget := by
    cases query with
    | createSlot => exact absurd rfl hcreate
    | getChanges n => exact absurd rfl (hget n)
    | connect | activePid | terminateBackend pid | slotName => rfl
  slotName_true s env h := by
    have hslot : s.slot = true := by
      simp only [SlotState.execute, Option.ite_none_right_eq_some, Option.some.injEq] at h
      exact h.2
    rw [SlotState.position, if_pos hslot]
    rfl
  position_createSlot s env := by
    rw [SlotState.execute]
    cases hslot : s.slot with
    | true => exact Or.inl rfl
    | false => exact Or.inr ⟨by simp [SlotState.position, hslot], rfl⟩
  createSlot_returns s env h := by
    rw [SlotState.execute] at h ⊢
    cases hslot : s.slot with
    | true =>
        rw [hslot] at h
        cases h
    | false => rfl
  getChanges_absent s env n h := by
    have hslot : s.slot = false := by simpa [SlotState.position] using h
    rw [SlotState.execute, hslot]
    exact ⟨h, rfl⟩
  getChanges_present s env n p h := by
    have hslot : s.slot = true ∧ s.past.length = p := by simpa [SlotState.position] using h
    refine ⟨uptoChanges size n 0 s.waiting, ?_, ?_, ?_⟩
    · rw [← hslot.2, List.drop_left]
      exact uptoChanges_front size n 0 s.waiting
    · rw [SlotState.execute, hslot.1, ← hslot.2, ← List.length_append]
      rfl
    · intro rows hrows
      rw [SlotState.execute, hslot.1] at hrows
      by_cases hanswers : env.answers = true
      · simp only [hanswers, if_true, Option.mem_some_iff] at hrows
        exact hrows.symm
      · simp only [hanswers, if_true, if_false, Option.not_mem_none, Bool.false_eq_true] at hrows
  log_progress s env := ⟨env.commits, List.append_assoc _ _ _⟩
  progress_absent s env h := h
  progress_present s env p h := ⟨p, le_rfl, h⟩

end PgSnowflakeCdc
