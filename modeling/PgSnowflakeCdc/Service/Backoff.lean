import PgSnowflakeCdc.Service.Iterations

/-!
# Back-off and reconnects (`run`)

`attempt` is the exponent of the delay and decides whether an entry of the outer loop is counted as a
reconnect.  It is set to 0 when the connection is opened, and the error branch still subtracts 1.

* `failures`, `expectedDelay`, `BacksOff` — how the delays of a run should grow;
* `delayAfter_zero`, `delayAfter_succ` — the delay after the reset, and without it;
* `backsOff_iff` — **the service backs off exactly when it fails only while opening its connection**;
* `reconnects_iff` — **every reconnect is counted exactly when only the last iteration opens its
  connection.**
-/

namespace PgSnowflakeCdc

namespace Service

variable {P : Platform} {cfg : ServiceConfig}

/-! ### How the delays should grow -/

/-- How many iterations have failed in a row, the newest being the last of them, since a poll cycle was
completed. -/
def failures : List Iteration → ℕ
  | [] => 0
  | it :: older => if it.slept = none then 0 else if it.served then 1 else failures older + 1

variable (cfg) in
/-- `min(BACKOFF_BASE * 2^min(k-1, 6), BACKOFF_MAX)`, the delay after the `k`-th failure in a row. -/
def expectedDelay (k : ℕ) : ℚ := min (cfg.backoffBase * 2 ^ min (k - 1) 6) cfg.backoffMax

variable (cfg) in
/-- Every delay is the one of its failure, lies between base and maximum, and is not below the delay
before in the same outage. -/
structure BacksOff (its : List Iteration) : Prop where
  delay : ∀ it older, it :: older <:+ its → ∀ d, it.slept = some d →
    d = expectedDelay cfg (failures (it :: older))
  bounds : ∀ it ∈ its, ∀ d, it.slept = some d → (cfg.backoffBase : ℚ) ≤ d ∧ d ≤ cfg.backoffMax
  grows : ∀ it previous older, it :: previous :: older <:+ its → it.served = false →
    ∀ d d', it.slept = some d → previous.slept = some d' → d' ≤ d

section Bounds

variable (hbase : 0 < cfg.backoffBase) (hmax : cfg.backoffBase ≤ cfg.backoffMax)

include hbase

/-- The delay behind the reset is half the base. -/
theorem delayAfter_zero (hmax : cfg.backoffBase ≤ cfg.backoffMax) :
    delayAfter cfg 0 = cfg.backoffBase / 2 := by
  have hbase' : (0 : ℚ) < cfg.backoffBase := by exact_mod_cast hbase
  have hmax' : (cfg.backoffBase : ℚ) ≤ cfg.backoffMax := by exact_mod_cast hmax
  have hexp : min (((0 : ℕ) : ℤ) - 1) 6 = -1 := by omega
  rw [delayAfter, hexp, zpow_neg_one, ← div_eq_mul_inv]
  exact min_eq_left (by linarith)

omit hbase in
/-- Without a reset it is the expected one. -/
theorem delayAfter_succ (n : ℕ) : delayAfter cfg (n + 1) = expectedDelay cfg (n + 1) := by
  have hexp : min (((n + 1 : ℕ) : ℤ) - 1) 6 = ((min (n + 1 - 1) 6 : ℕ) : ℤ) := by omega
  rw [delayAfter, expectedDelay, hexp, zpow_natCast]

theorem le_expectedDelay (hmax : cfg.backoffBase ≤ cfg.backoffMax) (k : ℕ) :
    (cfg.backoffBase : ℚ) ≤ expectedDelay cfg k := by
  have hbase' : (0 : ℚ) ≤ cfg.backoffBase := by exact_mod_cast hbase.le
  have hmax' : (cfg.backoffBase : ℚ) ≤ cfg.backoffMax := by exact_mod_cast hmax
  refine le_min ?_ hmax'
  exact le_mul_of_one_le_right hbase' (one_le_pow₀ (by norm_num))

theorem expectedDelay_mono {j k : ℕ} (h : j ≤ k) : expectedDelay cfg j ≤ expectedDelay cfg k := by
  have hbase' : (0 : ℚ) ≤ cfg.backoffBase := by exact_mod_cast hbase.le
  have hexp : min (j - 1) 6 ≤ min (k - 1) 6 := by omega
  exact min_le_min_right _
    (mul_le_mul_of_nonneg_left (pow_le_pow_right₀ (by norm_num) hexp) hbase')

end Bounds

theorem delayAfter_nonneg (hbase : 0 < cfg.backoffBase) (hmax : cfg.backoffBase ≤ cfg.backoffMax)
    (n : ℕ) : 0 ≤ delayAfter cfg n := by
  have hbase' : (0 : ℚ) ≤ cfg.backoffBase := by exact_mod_cast hbase.le
  cases n with
  | zero =>
      rw [delayAfter_zero hbase hmax]
      linarith
  | succ n =>
      rw [delayAfter_succ]
      exact hbase'.trans (le_expectedDelay hbase hmax _)

/-! ### Outages while connecting -/

/-- No iteration fails once its connection is open. -/
def FailsUnopened (its : List Iteration) : Prop := ∀ it ∈ its, it.slept ≠ none → it.opened = false

/-- Then every failure counts for `attempt`. -/
theorem connectFailures_eq {s : Service} {its : List Iteration} (h : Recorded cfg s its)
    (hunopened : FailsUnopened its) {it : Iteration} {older : List Iteration}
    (hsuffix : it :: older <:+ its) (hslept : it.slept ≠ none) :
    connectFailures (it :: older) = failures (it :: older) := by
  induction older generalizing it with
  | nil =>
      have hmem : it ∈ its := hsuffix.subset List.mem_cons_self
      have hopened := hunopened it hmem hslept
      have hserved := h.unserved hmem hopened
      simp [connectFailures, failures, hslept, hopened, hserved]
  | cons previous older ih =>
      have hmem : it ∈ its := hsuffix.subset List.mem_cons_self
      have hopened := hunopened it hmem hslept
      have hserved := h.unserved hmem hopened
      have hprevious : previous.slept ≠ none := by
        obtain ⟨newer, rfl⟩ := hsuffix
        apply h.older
        cases newer with
        | nil => simp
        | cons first newer => simp
      have hrest := ih ((List.suffix_cons _ _).trans hsuffix) hprevious
      rw [connectFailures, failures, if_neg hslept, hopened, hserved, hrest]
      rfl

/-- **The delays are the expected ones exactly when no iteration fails with its connection open.** -/
theorem backsOff_iff_failsUnopened {s : Service} {its : List Iteration} (h : Recorded cfg s its)
    (hbase : 0 < cfg.backoffBase) (hmax : cfg.backoffBase ≤ cfg.backoffMax) :
    BacksOff cfg its ↔ FailsUnopened its := by
  constructor
  · intro hbacks it hmem hslept
    obtain ⟨d, hd⟩ := Option.ne_none_iff_exists'.mp hslept
    by_contra hopened
    have hopened' : it.opened = true := by simpa using hopened
    obtain ⟨newer, older, rfl⟩ := List.append_of_mem hmem
    have hzero := h.slept it older (List.suffix_append _ _) d hd
    rw [connectFailures, if_pos hopened', delayAfter_zero hbase hmax] at hzero
    have hbase' : (0 : ℚ) < cfg.backoffBase := by exact_mod_cast hbase
    have hlow := (hbacks.bounds it hmem d hd).1
    linarith
  · intro hunopened
    have hdelay : ∀ it older, it :: older <:+ its → ∀ d, it.slept = some d →
        d = expectedDelay cfg (failures (it :: older)) := by
      intro it older hsuffix d hd
      have hslept : it.slept ≠ none := by simp [hd]
      have hopened := hunopened it (hsuffix.subset List.mem_cons_self) hslept
      rw [← connectFailures_eq h hunopened hsuffix hslept, h.slept it older hsuffix d hd,
        connectFailures, hopened]
      exact delayAfter_succ _
    refine ⟨hdelay, ?_, ?_⟩
    · intro it hmem d hd
      obtain ⟨newer, older, rfl⟩ := List.append_of_mem hmem
      rw [hdelay it older (List.suffix_append _ _) d hd]
      exact ⟨le_expectedDelay hbase hmax _, min_le_right _ _⟩
    · intro it previous older hsuffix hserved d d' hd hd'
      have hslept : it.slept ≠ none := by simp [hd]
      rw [hdelay it _ hsuffix d hd,
        hdelay previous older ((List.suffix_cons _ _).trans hsuffix) d' hd']
      apply expectedDelay_mono hbase
      rw [failures.eq_2 it, if_neg hslept, hserved]
      exact Nat.le_succ _

/-! ### What raises -/

theorem failsUnopened_cons {it : Iteration} {older : List Iteration} :
    FailsUnopened (it :: older) ↔ (it.slept ≠ none → it.opened = false) ∧ FailsUnopened older :=
  List.forall_mem_cons

/-- A step that does not sleep makes no failure. -/
theorem failsUnopened_observe {s s' : Service} {its : List Iteration} (h : Recorded cfg s its)
    (hdelays : s'.delays = s.delays) : FailsUnopened (observe s s' its) ↔ FailsUnopened its := by
  rw [observe]
  split
  · rw [failsUnopened_cons]
    exact and_iff_right fun hslept => absurd rfl hslept
  · cases its with
    | nil => exact Iff.rfl
    | cons it older =>
        have hslept : (it.observe s s').slept = it.slept := by
          simp [Iteration.observe, newDelay_of_eq hdelays]
        have hopened : it.slept ≠ none → (it.observe s s').opened = it.opened := by
          intro hasleep
          have hcontrol : s.control ≠ .connecting := by
            intro hc
            obtain ⟨it₁, older₁, heq, hawake⟩ := h.newest (Or.inl (stage_connecting hc))
            rw [(List.cons.inj heq).1] at hasleep
            exact hasleep hawake
          simp [Iteration.observe, hcontrol]
        rw [List.modifyHead_cons, failsUnopened_cons, failsUnopened_cons, hslept]
        refine and_congr (imp_congr_right fun hasleep => ?_) Iff.rfl
        rw [hopened hasleep]

/-- An exception makes a failure, with the connection open unless it was being opened. -/
theorem failsUnopened_afterError {s s₁ : Service} {its : List Iteration} (h : Recorded cfg s its)
    (hsame : SameCounters s s₁) (hstage : s.stage = .opening ∨ s.stage = .streaming)
    (hbase : 0 < cfg.backoffBase) (hmax : cfg.backoffBase ≤ cfg.backoffMax) :
    FailsUnopened (observe s (s₁.afterError cfg) its) ↔
      FailsUnopened its ∧ s.control = .connecting := by
  obtain ⟨it, older, rfl, hawake⟩ := h.newest hstage
  have hopenings : (s₁.afterError cfg).openings = s.openings := by
    rw [openings_afterError, hsame.openings]
  have hdelay : newDelay s (s₁.afterError cfg) ≠ none := by
    have hnonneg : ¬ s₁.backoff cfg < 0 := not_lt.mpr (delayAfter_nonneg hbase hmax _)
    simp [newDelay_afterError hsame, hnonneg]
  rw [observe_cons hopenings, observe_afterError s s₁ hawake, failsUnopened_cons, failsUnopened_cons,
    ← h.newest_opened hstage]
  constructor
  · rintro ⟨hnew, holder⟩
    exact ⟨⟨fun hslept => absurd hawake hslept, holder⟩, hnew hdelay⟩
  · rintro ⟨⟨-, holder⟩, hopened⟩
    exact ⟨fun _ => hopened, holder⟩

/-- **One step**: a failure with the connection open is an exception behind the `with` statement. -/
theorem failsUnopened_step {s : Service} {its : List Iteration} (h : Recorded cfg s its)
    (hbase : 0 < cfg.backoffBase) (hmax : cfg.backoffBase ≤ cfg.backoffMax) (i : Input) :
    FailsUnopened (observe s (s.step P cfg i) its) ↔
      FailsUnopened its ∧ (Raises P cfg s i → s.control = .connecting) := by
  cases i with
  | signal =>
      have hkeep : (s.step P cfg .signal).delays = s.delays := rfl
      rw [failsUnopened_observe h hkeep]
      exact (and_iff_left fun hraises => hraises.elim).symm
  | proceed env =>
      have hturn := @step_turn P cfg s env
      generalize s.step P cfg (.proceed env) = s' at hturn ⊢
      cases hturn with
      | enter hcontrol hrunning =>
          have hkeep : s.openStream.delays = s.delays := rfl
          rw [failsUnopened_observe h hkeep]
          refine (and_iff_left fun hraises => ?_).symm
          simp [Raises, hcontrol] at hraises
      | opens hcontrol hconnects =>
          have hkeep : ({ s with attempt := 0 }.goto .innerHead).delays = s.delays := rfl
          rw [failsUnopened_observe h hkeep]
          exact (and_iff_left fun _ => hcontrol).symm
      | passes hraises hsame hpasses =>
          rw [failsUnopened_observe h hsame.delays]
          exact (and_iff_left fun hr => absurd hr hraises).symm
      | @raises s₁ hraises hsame hstage =>
          rw [failsUnopened_afterError h hsame hstage hbase hmax]
          exact and_congr Iff.rfl ⟨fun hnew _ => hnew, fun hnew => hnew hraises⟩

/-- A run raises only while connecting exactly when no iteration fails with its connection open. -/
theorem along_raises_iff (hbase : 0 < cfg.backoffBase) (hmax : cfg.backoffBase ≤ cfg.backoffMax)
    (now : ℚ) (inputs : List Input) :
    FailsUnopened (iterations P cfg (.start now) inputs) ↔
      Replay.Along (fun i s => s.step P cfg i) (fun s i => Raises P cfg s i → s.control = .connecting)
        inputs (.start now) := by
  induction inputs using List.reverseRecOn with
  | nil => exact iff_of_true (by simp [FailsUnopened, iterations]) trivial
  | append_singleton inputs i ih =>
      have hrecorded := @recorded_run P cfg now inputs
      rw [iterations_snoc, failsUnopened_step hrecorded hbase hmax, ih, Replay.along_append]
      exact and_congr Iff.rfl (and_iff_left trivial).symm

/-- While the connection cannot be opened, nothing else raises. -/
theorem along_raises_of_unreachable {s : Service} (hstage : s.stage ≠ .streaming) {inputs : List Input}
    (h : ∀ i ∈ inputs, ∀ env, i = .proceed env → env.connects = false) :
    Replay.Along (fun i s => s.step P cfg i) (fun s i => Raises P cfg s i → s.control = .connecting)
      inputs s := by
  induction inputs generalizing s with
  | nil => trivial
  | cons i inputs ih =>
      have hrest := fun j hj => h j (List.mem_cons_of_mem i hj)
      cases i with
      | signal => exact ⟨fun hraises => hraises.elim, ih hstage hrest⟩
      | proceed env =>
          have hrefused := h _ List.mem_cons_self env rfl
          have hturn := @step_turn P cfg s env
          show (Raises P cfg s (.proceed env) → s.control = .connecting) ∧
            Replay.Along _ _ inputs (s.step P cfg (.proceed env))
          generalize s.step P cfg (.proceed env) = s' at hturn ⊢
          cases hturn with
          | enter hcontrol hrunning =>
              have hopening : s.openStream.stage ≠ .streaming := by
                rw [stage_connecting rfl]
                simp
              refine ⟨fun hraises => ?_, ih hopening hrest⟩
              simp [Raises, hcontrol] at hraises
          | opens hcontrol hconnects => cases hrefused.symm.trans hconnects
          | @raises s₁ hraises hsame hbody =>
              have hopening := hbody.resolve_right hstage
              exact ⟨fun _ => control_of_opening hopening, ih (stage_afterError_ne s₁) hrest⟩
          | passes hraises hsame hpasses =>
              refine ⟨fun hr => absurd hr hraises, ih ?_ hrest⟩
              cases hpasses with
              | on hstreaming hstreaming' hflush => exact absurd hstreaming hstage
              | leave hcontrol hcontrol' => simp [stage, hcontrol']
              | finish hbetween hdone => simp [hdone]

/-- **The service backs off exactly when it fails only while opening its connection**: the `k`-th failure
in a row since the start or the last completed poll cycle sleeps
`min(BACKOFF_BASE * 2^min(k-1, 6), BACKOFF_MAX)`, between base and maximum and never less than before in
the same outage. -/
theorem backsOff_iff (P : Platform) {cfg : ServiceConfig} (hbase : 0 < cfg.backoffBase)
    (hmax : cfg.backoffBase ≤ cfg.backoffMax) (now : ℚ) (inputs : List Input) :
    BacksOff cfg (iterations P cfg (.start now) inputs) ↔
      Replay.Along (fun i s => s.step P cfg i) (fun s i => Raises P cfg s i → s.control = .connecting)
        inputs (.start now) := by
  rw [backsOff_iff_failsUnopened (recorded_run now inputs) hbase hmax]
  exact along_raises_iff hbase hmax now inputs

/-- The defaults of the environment variables. -/
def defaultConfig : ServiceConfig := ⟨⟨500, 10, 5⟩, 5, 120⟩

/-- Every poll fails; the connection can be opened or not. -/
def failingPolls (connects : Bool) : StepEnv := ⟨connects, none, ⟨0, 0, fun _ => ⟨none, lastFirstTie⟩⟩⟩

/-- Three connection failures. -/
def unreachable : List Input := List.replicate 6 (.proceed (failingPolls false))

theorem backsOff_unreachable :
    BacksOff defaultConfig (iterations .ascii defaultConfig (.start 0) unreachable) := by
  refine (backsOff_iff .ascii (by decide) (by decide) 0 unreachable).mpr ?_
  apply along_raises_of_unreachable (by decide)
  intro i hi env henv
  rw [List.eq_of_mem_replicate hi] at henv
  rw [← Input.proceed.inj henv]
  rfl

example : (run .ascii defaultConfig (.start 0) unreachable).delays = [5, 10, 20] := by decide +kernel

/-- The connection is opened, the first poll fails, and the stream is opened again. -/
def brokenStream : List Input := List.replicate 5 (.proceed (failingPolls true))

/-- **After a broken stream the service sleeps half the base.** -/
theorem brokenStream_sleeps_half_base :
    iterations .ascii defaultConfig (.start 0) brokenStream =
        [⟨false, false, none⟩, ⟨true, false, some (5 / 2)⟩] ∧
      ¬ BacksOff defaultConfig (iterations .ascii defaultConfig (.start 0) brokenStream) := by
  have hits : iterations .ascii defaultConfig (.start 0) brokenStream =
      [⟨false, false, none⟩, ⟨true, false, some (5 / 2)⟩] := by decide +kernel
  refine ⟨hits, fun hbacks => ?_⟩
  have hlow := (hbacks.bounds ⟨true, false, some (5 / 2)⟩ (by simp [hits]) (5 / 2) rfl).1
  norm_num [defaultConfig] at hlow

/-! ### Reconnects -/

theorem countedReconnects_le (it : Iteration) (older : List Iteration) :
    countedReconnects (it :: older) ≤ older.length := by
  induction older generalizing it with
  | nil => rfl
  | cons previous older ih =>
      have hrest := ih previous
      rw [countedReconnects, List.length_cons]
      split
      · omega
      · omega

theorem countedReconnects_eq_iff (it : Iteration) (older : List Iteration) :
    countedReconnects (it :: older) = older.length ↔ ∀ previous ∈ older, previous.opened = false := by
  induction older generalizing it with
  | nil => simp [countedReconnects, connectFailures]
  | cons previous older ih =>
      have hle := countedReconnects_le previous older
      rw [countedReconnects, List.length_cons, List.forall_mem_cons, ← ih previous]
      cases hopened : previous.opened with
      | true =>
          rw [connectFailures, hopened, if_pos rfl, if_pos rfl]
          simp only [reduceCtorEq, false_and, iff_false]
          omega
      | false =>
          rw [connectFailures, hopened, if_neg Bool.false_ne_true, if_neg (Nat.succ_ne_zero _)]
          simp only [true_and]
          omega

/-- **Every reconnect is counted exactly when only the last iteration opens its connection.** -/
theorem reconnects_iff (P : Platform) (cfg : ServiceConfig) (now : ℚ) (inputs : List Input) :
    (run P cfg (.start now) inputs).reconnects = (run P cfg (.start now) inputs).openings - 1 ↔
      ∀ it ∈ (iterations P cfg (.start now) inputs).tail, it.opened = false := by
  have hrecorded := @recorded_run P cfg now inputs
  rw [hrecorded.reconnects, hrecorded.openings]
  cases iterations P cfg (.start now) inputs with
  | nil => simp [countedReconnects]
  | cons it older => exact countedReconnects_eq_iff it older

/-- **The reconnect after a broken stream is not counted.** -/
theorem brokenStream_not_counted :
    (run .ascii defaultConfig (.start 0) brokenStream).openings = 2 ∧
      (run .ascii defaultConfig (.start 0) brokenStream).reconnects = 0 ∧
      (run .ascii defaultConfig (.start 0) brokenStream).reconnects ≠
        (run .ascii defaultConfig (.start 0) brokenStream).openings - 1 := by
  decide +kernel

end Service

end PgSnowflakeCdc
