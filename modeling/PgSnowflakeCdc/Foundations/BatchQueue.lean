import Mathlib.Data.List.Basic
import Mathlib.Tactic.Common
import PgSnowflakeCdc.Foundations.Replay

/-!
# A bounded queue drained in batches

Any number of producers put items into a queue of bounded capacity, and never wait: what does not fit is
dropped.  One worker takes items out, one at a time, into a batch; it hands the batch on when it is full,
or when it has waited long enough on an empty queue.  The delivery of a batch succeeds or fails; either way
the worker starts the next one.

* `Batcher`, `step`, `run` — the machine, under any order of its events;
* `Sound`, `sound_run` — **what is put in leaves in order, once, in batches that are neither empty nor too
  large**;
* `work`, `work_drains` — the worker alone empties the queue.
-/

namespace PgSnowflakeCdc.BatchQueue

variable {α : Type*}

/-- A queue with its worker.  `accepted` and `handed` record what has happened: the items put into the
queue, and the batches handed on with whether they were delivered. -/
structure Batcher (α : Type*) where
  queue : List α
  batch : List α
  /-- The batch being delivered. -/
  posting : Option (List α)
  accepted : List α
  handed : List (List α × Bool)

/-- Nothing has happened yet. -/
def Batcher.start : Batcher α := ⟨[], [], none, [], []⟩

inductive Event (α : Type*) where
  /-- A producer puts an item. -/
  | put (a : α) : Event α
  /-- The worker takes an item. -/
  | get : Event α
  /-- The worker's wait on the empty queue ends. -/
  | timeout : Event α
  /-- The delivery of a batch ends. -/
  | posted (delivered : Bool) : Event α

/-- The items of the puts. -/
def puts (events : List (Event α)) : List α :=
  events.filterMap fun
    | .put a => some a
    | _ => none

theorem puts_append (xs ys : List (Event α)) : puts (xs ++ ys) = puts xs ++ puts ys :=
  List.filterMap_append

namespace Batcher

variable (capacity limit : ℕ)

/-- `put_nowait`. -/
def put (s : Batcher α) (a : α) : Batcher α :=
  if s.queue.length < capacity then
    { s with queue := s.queue ++ [a], accepted := s.accepted ++ [a] }
  else s

/-- The batch is handed on. -/
def hand (s : Batcher α) : Batcher α := { s with batch := [], posting := some s.batch }

/-- An item goes from the queue to the batch; a full batch is handed on. -/
def get (s : Batcher α) : Batcher α :=
  match s.posting, s.queue with
  | none, a :: rest =>
    let s := { s with queue := rest, batch := s.batch ++ [a] }
    if s.batch.length < limit then s else s.hand
  | _, _ => s

def timeout (s : Batcher α) : Batcher α :=
  match s.posting, s.queue with
  | none, [] => if s.batch = [] then s else s.hand
  | _, _ => s

def posted (s : Batcher α) (delivered : Bool) : Batcher α :=
  match s.posting with
  | some b => { s with posting := none, handed := s.handed ++ [(b, delivered)] }
  | none => s

def step (s : Batcher α) : Event α → Batcher α
  | .put a => s.put capacity a
  | .get => s.get limit
  | .timeout => s.timeout
  | .posted delivered => s.posted delivered

def run (s : Batcher α) (events : List (Event α)) : Batcher α :=
  Replay.run (fun e s => s.step capacity limit e) events s

theorem run_append (s : Batcher α) (xs ys : List (Event α)) :
    s.run capacity limit (xs ++ ys) = (s.run capacity limit xs).run capacity limit ys :=
  Replay.run_append _ xs ys s

/-- The items on their way, oldest first. -/
def inFlight (s : Batcher α) : List α := s.posting.getD [] ++ s.batch ++ s.queue

/-- The items handed on, oldest first. -/
def left (s : Batcher α) : List α := (s.handed.map Prod.fst).flatten

/-- The batches that were delivered. -/
def delivered (s : Batcher α) : List (List α) :=
  (s.handed.filter Prod.snd).map Prod.fst

/-- **Every accepted item has left or is on its way, in the order of acceptance**, and the bounds hold. -/
structure Sound (s : Batcher α) : Prop where
  conserved : s.left ++ s.inFlight = s.accepted
  queue_le : s.queue.length ≤ capacity
  batch_lt : s.batch.length < limit
  posting_len : ∀ b ∈ s.posting, 1 ≤ b.length ∧ b.length ≤ limit
  handed_len : ∀ p ∈ s.handed, 1 ≤ p.1.length ∧ p.1.length ≤ limit

variable {capacity limit}

theorem sound_start (hlimit : 0 < limit) : Sound capacity limit (start : Batcher α) where
  conserved := rfl
  queue_le := Nat.zero_le _
  batch_lt := hlimit
  posting_len := by simp [start]
  handed_len := by simp [start]

theorem Sound.put {s : Batcher α} (h : Sound capacity limit s) (a : α) :
    Sound capacity limit (s.put capacity a) := by
  rw [Batcher.put]
  split
  · next hroom =>
      refine ⟨?_, ?_, h.batch_lt, h.posting_len, h.handed_len⟩
      · have hconserved := congrArg (· ++ [a]) h.conserved
        simpa [inFlight, left] using hconserved
      · rw [List.length_append]
        exact hroom
  · exact h

/-- A batch is handed on when it is not empty. -/
theorem Sound.hand {s : Batcher α} (hconserved : s.left ++ s.inFlight = s.accepted)
    (hqueue : s.queue.length ≤ capacity) (hposting : s.posting = none) (hlimit : 0 < limit)
    (hbatch : 1 ≤ s.batch.length ∧ s.batch.length ≤ limit)
    (hhanded : ∀ p ∈ s.handed, 1 ≤ p.1.length ∧ p.1.length ≤ limit) :
    Sound capacity limit s.hand := by
  refine ⟨?_, hqueue, hlimit, ?_, hhanded⟩
  · rw [show s.hand.accepted = s.accepted from rfl, ← hconserved, inFlight, inFlight, hposting]
    simp [Batcher.hand, left]
  · intro b hb
    rw [← Option.some.inj hb]
    exact hbatch

theorem Sound.get {s : Batcher α} (h : Sound capacity limit s) :
    Sound capacity limit (s.get limit) := by
  rw [Batcher.get]
  split
  · next a rest hposting hqueue =>
      have hconserved : left { s with queue := rest, batch := s.batch ++ [a] } ++
          inFlight { s with queue := rest, batch := s.batch ++ [a] } = s.accepted := by
        rw [← h.conserved]
        simp [inFlight, left, hqueue]
      have hrest : rest.length ≤ capacity := by
        have hle := h.queue_le
        rw [hqueue, List.length_cons] at hle
        omega
      have hlen : (s.batch ++ [a]).length = s.batch.length + 1 := List.length_append
      have hlt := h.batch_lt
      dsimp only
      split
      · next hroom => exact ⟨hconserved, hrest, hroom, h.posting_len, h.handed_len⟩
      · refine .hand hconserved hrest hposting (by omega) ?_ h.handed_len
        show 1 ≤ (s.batch ++ [a]).length ∧ (s.batch ++ [a]).length ≤ limit
        omega
  · exact h

theorem Sound.timeout {s : Batcher α} (h : Sound capacity limit s) :
    Sound capacity limit s.timeout := by
  rw [Batcher.timeout]
  split
  · next hposting hqueue =>
      split
      · exact h
      · next hbatch =>
          have hpos := List.length_pos_iff.mpr hbatch
          have hlt := h.batch_lt
          exact .hand h.conserved h.queue_le hposting (by omega) ⟨hpos, by omega⟩ h.handed_len
  · exact h

theorem Sound.posted {s : Batcher α} (h : Sound capacity limit s) (delivered : Bool) :
    Sound capacity limit (s.posted delivered) := by
  rw [Batcher.posted]
  split
  · next b hposting =>
      refine ⟨?_, h.queue_le, h.batch_lt, by simp, ?_⟩
      · rw [← h.conserved]
        simp [left, inFlight, hposting]
      · intro p hp
        rcases List.mem_append.mp hp with hp | hp
        · exact h.handed_len p hp
        · rw [List.mem_singleton.mp hp]
          exact h.posting_len b hposting
  · exact h

/-- **The invariant of every interleaving.** -/
theorem sound_run {s : Batcher α} (h : Sound capacity limit s) (events : List (Event α)) :
    Sound capacity limit (s.run capacity limit events) := by
  refine Replay.run_invariant _ h fun e _ s hs => ?_
  cases e with
  | put a => exact hs.put a
  | get => exact hs.get
  | timeout => exact hs.timeout
  | posted delivered => exact hs.posted delivered

/-! ### What is accepted -/

@[simp] theorem accepted_get (s : Batcher α) : (s.get limit).accepted = s.accepted := by
  rw [Batcher.get]
  split
  · dsimp only
    split
    · rfl
    · rfl
  · rfl

@[simp] theorem accepted_timeout (s : Batcher α) : s.timeout.accepted = s.accepted := by
  rw [Batcher.timeout]
  split
  · split
    · rfl
    · rfl
  · rfl

@[simp] theorem accepted_posted (s : Batcher α) (delivered : Bool) :
    (s.posted delivered).accepted = s.accepted := by
  rw [Batcher.posted]
  split
  · rfl
  · rfl

theorem accepted_put (s : Batcher α) (a : α) :
    (s.put capacity a).accepted =
      s.accepted ++ (if s.queue.length < capacity then [a] else []) := by
  rw [Batcher.put]
  split
  · rfl
  · exact (List.append_nil _).symm

/-- **Some of the items put are accepted, in their order.** -/
theorem accepted_run (s : Batcher α) (events : List (Event α)) :
    ∃ l, (s.run capacity limit events).accepted = s.accepted ++ l ∧ l.Sublist (puts events) := by
  induction events generalizing s with
  | nil => exact ⟨[], (List.append_nil _).symm, List.Sublist.refl _⟩
  | cons e events ih =>
      obtain ⟨l, hl, hsub⟩ := ih (s.step capacity limit e)
      rw [run, Replay.run_cons]
      cases e with
      | put a =>
          refine ⟨(if s.queue.length < capacity then [a] else []) ++ l, ?_, ?_⟩
          · rw [← List.append_assoc, ← accepted_put]
            exact hl
          · show List.Sublist _ (a :: puts events)
            split
            · exact hsub.cons_cons a
            · exact hsub.cons a
      | get => exact ⟨l, hl.trans (by rw [step, accepted_get]), hsub⟩
      | timeout => exact ⟨l, hl.trans (by rw [step, accepted_timeout]), hsub⟩
      | posted delivered => exact ⟨l, hl.trans (by rw [step, accepted_posted]), hsub⟩

/-- The event is not a put on a full queue. -/
def Fits (capacity : ℕ) (s : Batcher α) : Event α → Prop
  | .put _ => s.queue.length < capacity
  | _ => True

/-- When every put finds room, all items are accepted. -/
theorem accepted_of_fits {s : Batcher α} {events : List (Event α)}
    (h : Replay.Along (fun e s => s.step capacity limit e) (Fits capacity) events s) :
    (s.run capacity limit events).accepted = s.accepted ++ puts events := by
  induction events generalizing s with
  | nil => exact (List.append_nil _).symm
  | cons e events ih =>
      have hrest := ih h.2
      rw [run, Replay.run_cons]
      refine hrest.trans ?_
      cases e with
      | put a =>
          have hroom : s.queue.length < capacity := h.1
          show (s.put capacity a).accepted ++ puts events = _
          rw [accepted_put, if_pos hroom, List.append_assoc]
          rfl
      | get => exact congrArg (· ++ puts events) (accepted_get s)
      | timeout => exact congrArg (· ++ puts events) (accepted_timeout s)
      | posted delivered => exact congrArg (· ++ puts events) (accepted_posted s delivered)

/-! ### What is delivered -/

/-- The batches handed on, split by whether they were delivered, are parts of what left. -/
theorem delivered_sublist (s : Batcher α) : s.delivered.flatten.Sublist s.left := by
  rw [delivered, left]
  induction s.handed with
  | nil => exact List.Sublist.refl _
  | cons p handed ih =>
      cases hp : p.2 with
      | true =>
          rw [List.filter_cons_of_pos hp]
          exact (List.Sublist.refl p.1).append ih
      | false =>
          rw [List.filter_cons_of_neg (by simp [hp])]
          exact ih.trans (List.sublist_append_right _ _)

theorem delivered_len {s : Batcher α} (h : Sound capacity limit s) :
    ∀ b ∈ s.delivered, 1 ≤ b.length ∧ b.length ≤ limit := by
  intro b hb
  obtain ⟨p, hp, rfl⟩ := List.mem_map.mp hb
  exact h.handed_len p (List.mem_of_mem_filter hp)

/-- **What is delivered is a subsequence of what is put.** -/
theorem delivered_sublist_puts (hlimit : 0 < limit) (events : List (Event α)) :
    (run capacity limit start events).delivered.flatten.Sublist (puts events) := by
  obtain ⟨l, hl, hsub⟩ := @accepted_run α capacity limit start events
  have hsound := sound_run (@sound_start α capacity limit hlimit) events
  refine (delivered_sublist _).trans ?_
  have hleft : (run capacity limit start events).left.Sublist l := by
    have hconserved := hsound.conserved
    rw [hl, show (start : Batcher α).accepted = [] from rfl, List.nil_append] at hconserved
    rw [← hconserved]
    exact List.sublist_append_left _ _
  exact hleft.trans hsub

theorem handed_step_subset (s : Batcher α) {e : Event α} (he : e ≠ .posted false)
    (h : ∀ p ∈ s.handed, p.2 = true) : ∀ p ∈ (s.step capacity limit e).handed, p.2 = true := by
  cases e with
  | put a =>
      rw [step, Batcher.put]
      split
      · exact h
      · exact h
  | get =>
      rw [step, Batcher.get]
      split
      · dsimp only
        split
        · exact h
        · exact h
      · exact h
  | timeout =>
      rw [step, Batcher.timeout]
      split
      · split
        · exact h
        · exact h
      · exact h
  | posted delivered =>
      have hdelivered : delivered = true := by
        cases delivered with
        | true => rfl
        | false => exact absurd rfl he
      rw [step, Batcher.posted]
      split
      · intro p hp
        rcases List.mem_append.mp hp with hp | hp
        · exact h p hp
        · rw [List.mem_singleton.mp hp]
          exact hdelivered
      · exact h

/-- When no delivery fails, all that left was delivered. -/
theorem delivered_of_no_failure {s : Batcher α} (h : ∀ p ∈ s.handed, p.2 = true)
    {events : List (Event α)} (hevents : ∀ e ∈ events, e ≠ .posted false) :
    (s.run capacity limit events).delivered.flatten = (s.run capacity limit events).left := by
  have hall : ∀ p ∈ (s.run capacity limit events).handed, p.2 = true :=
    Replay.run_invariant (P := fun s : Batcher α => ∀ p ∈ s.handed, p.2 = true) _ h
      fun e he s hs => handed_step_subset s (hevents e he) hs
  rw [delivered, List.filter_eq_self.mpr hall, left]

/-! ### The worker alone -/

/-- How much work is left. -/
def effort (s : Batcher α) : ℕ :=
  4 * s.queue.length + (if s.batch = [] then 0 else 2) + (if s.posting.isSome then 1 else 0)

/-- The worker always has an event that brings it closer to an empty queue. -/
theorem exists_progress {s : Batcher α} (h : s.inFlight ≠ []) :
    ∃ e : Event α, puts [e] = [] ∧ e ≠ .posted false ∧
      (s.step capacity limit e).effort < s.effort := by
  cases hposting : s.posting with
  | some b =>
      refine ⟨.posted true, rfl, by simp, ?_⟩
      rw [step, posted, hposting, effort, effort, hposting]
      exact Nat.lt_succ_self _
  | none =>
      cases hqueue : s.queue with
      | nil =>
          have hbatch : s.batch ≠ [] := by
            intro hbatch
            exact h (by rw [inFlight, hposting, hqueue, hbatch]; rfl)
          refine ⟨.timeout, rfl, by simp, ?_⟩
          rw [step, timeout, hposting, hqueue]
          dsimp only
          rw [if_neg hbatch, effort, effort, hposting, if_neg hbatch]
          simp [hand]
      | cons a rest =>
          refine ⟨.get, rfl, by simp, ?_⟩
          have hnew : s.batch ++ [a] ≠ [] := by simp
          -- an item leaves the queue; at most a batch is open then, or on its way
          have hold : s.effort = 4 * (rest.length + 1) + (if s.batch = [] then 0 else 2) := by
            rw [effort, hposting, hqueue]
            rfl
          rw [step, Batcher.get, hposting, hqueue, hold]
          dsimp only
          split
          · show 4 * rest.length + (if s.batch ++ [a] = [] then 0 else 2) + 0 < _
            rw [if_neg hnew]
            omega
          · show 4 * rest.length + 0 + 1 < _
            omega

/-- **The worker alone empties the queue**: from any state it can hand on everything, without a failure
if none occurs. -/
theorem work_drains (s : Batcher α) :
    ∃ events : List (Event α), puts events = [] ∧ (∀ e ∈ events, e ≠ .posted false) ∧
      (s.run capacity limit events).inFlight = [] := by
  induction hn : s.effort using Nat.strongRecOn generalizing s with
  | ind n ih =>
      by_cases h : s.inFlight = []
      · exact ⟨[], rfl, by simp, h⟩
      · obtain ⟨e, hput, hok, hlt⟩ := @exists_progress α capacity limit _ h
        obtain ⟨events, hputs, hoks, hdone⟩ := ih _ (by omega) (s.step capacity limit e) rfl
        refine ⟨e :: events, ?_, ?_, hdone⟩
        · rw [show e :: events = [e] ++ events from rfl, puts_append, hput, hputs]
          rfl
        · intro e' he'
          rcases List.mem_cons.mp he' with rfl | he'
          · exact hok
          · exact hoks e' he'

/-- **Nothing is lost** when every put finds room and no delivery fails: the worker alone can then
deliver everything put, in order. -/
theorem delivers_all {events : List (Event α)} (hlimit : 0 < limit)
    (hfits : Replay.Along (fun e s => s.step capacity limit e) (Fits capacity) events start)
    (hok : ∀ e ∈ events, e ≠ .posted false) :
    ∃ more : List (Event α), puts more = [] ∧ (∀ e ∈ more, e ≠ .posted false) ∧
      (run capacity limit start (events ++ more)).delivered.flatten = puts events := by
  obtain ⟨more, hputs, hmore, hdone⟩ := @work_drains α capacity limit
    (run capacity limit start events)
  refine ⟨more, hputs, hmore, ?_⟩
  have hevents : ∀ e ∈ events ++ more, e ≠ .posted false := by
    intro e he
    rcases List.mem_append.mp he with he | he
    · exact hok e he
    · exact hmore e he
  have hsound := sound_run (@sound_start α capacity limit hlimit) (events ++ more)
  have haccepted := accepted_of_fits hfits
  obtain ⟨l, hl, hsub⟩ := @accepted_run α capacity limit
    (run capacity limit start events) more
  rw [hputs, List.sublist_nil] at hsub
  rw [hsub, List.append_nil, haccepted] at hl
  have hconserved := hsound.conserved
  rw [run_append] at hconserved
  rw [hdone, List.append_nil, hl] at hconserved
  rw [delivered_of_no_failure (by simp [start]) hevents, run_append, hconserved]
  rfl

end Batcher

end PgSnowflakeCdc.BatchQueue
