import Novium.Time.Pit
import Novium.Sched.Sleep

/-! `timer_sleep_ms` measured in cycles of the oscillator. A sleeper is woken by the tick that
its deadline names, and whether that is early depends on where in a tick the call fell, on
what the whole number of ticks per second leaves out, and on what rounding up has added. -/

namespace Novium.Time

open Novium.Lib Novium.Arch Novium.Sched

/-- What becomes of a call of `timer_sleep_ms`. -/
inductive SleepCall where
  | returns
  /-- The caller halts until the deadline, and yields each time if it is the idle task. -/
  | waits (yields : Bool) (deadline : ℕ)
  /-- `SchedSleepUntil` has been called, with this result. -/
  | sleeps (r : Option State)

def timerSleepMs (ms : ℕ) (t : Timer) (s : State) : Option SleepCall :=
  if t.ticksPerSecond = 0 ∨ ms = 0 then some .returns
  else if !s.irqsEnabled then some .returns
  else
    let deadline := sleepDeadline ms t
    match s.currentTask with
    | none => some (.waits true deadline)
    | some self =>
      if s.id self = 0 then some (.waits true deadline)
      else do
        let (s, other) ← schedHasRunnable s
        if !other then some (.waits false deadline) else some (.sleeps (schedSleepUntil deadline s))

def timerCallback (regs : Bool) (t : Timer) (s : State) : Option (Timer × State) := do
  let t := { t with tickCount := u32 (t.tickCount + 1) }
  let (s, _) ← schedWakeExpired t.tickCount (schedTick regs s)
  some (t, s)

/-- From `t₀` and `s₀` on the task `c` has been blocked, and ticks and other events have left it so. -/
inductive Dozing (c : TaskRef) (t₀ : Timer) (s₀ : State) : Timer → State → Prop where
  | start : s₀.state c = .blocked → Dozing c t₀ s₀ t₀ s₀
  | other {t : Timer} {s s' : State} {e : Event} : Dozing c t₀ s₀ t s → Stays c s e → system.next s e = some s' →
      Dozing c t₀ s₀ t s'
  | tick {t t' : Timer} {s s' : State} {regs : Bool} : Dozing c t₀ s₀ t s → timerCallback regs t s = some (t', s') →
      s'.state c = .blocked → Dozing c t₀ s₀ t' s'

/-- In some run a task beside the idle one calls `timer_sleep_ms(ms)` under the timer `t`, and the first to wake it is
the timer at its tick `k`. -/
def WokenBy (t : Timer) (ms k : ℕ) : Prop :=
  ∃ (s s₀ s₁ s₂ : State) (c : TaskRef) (t₁ t₂ : Timer) (regs : Bool),
    system.ReachableIf LeavesUnlocked s ∧ s.currentTask = some c ∧ s.id c ≠ 0 ∧
    timerSleepMs ms t s = some (.sleeps (some s₀)) ∧ Dozing c t s₀ t₁ s₁ ∧
    timerCallback regs t₁ s₁ = some (t₂, s₂) ∧ s₂.state c = .ready ∧ t₂.tickCount = k

/-- The timer at a cycle behind `timer_init(hz)`, a tick having come at every multiple of the divisor. -/
def timerAt (callback : BitVec 32) (hz : ℤ) (t : Timer) (cycle : ℕ) : Timer :=
  { timerInit callback hz t with tickCount := cycle / (timerInit callback hz t).reload }

/-- The tick that ends a sleep of `ms` milliseconds called for at the given cycle does not come before they are over. -/
def NeverEarly (t : Timer) (cycle ms : ℕ) : Prop :=
  ∀ k, WokenBy t ms k → ms * pitOscFreq ≤ (k * t.reload - cycle) * 1000

/-- By how many thousandths of a tick `ms` milliseconds are rounded up. -/
def surplus (tps ms : ℕ) : ℕ := (1000 - ms * tps % 1000) % 1000

theorem Dozing.first {c : TaskRef} {t₀ t : Timer} {s₀ s : State} (h : Dozing c t₀ s₀ t s) : s₀.state c = .blocked := by
  induction h with
  | start hblk => exact hblk
  | other _ _ _ ih => exact ih
  | tick _ _ _ ih => exact ih

theorem ticksFor_surplus (tps ms : ℕ) : 1000 * ticksFor tps ms = ms * tps + surplus tps ms := by
  unfold ticksFor surplus
  omega

theorem ticksFor_pos {tps ms : ℕ} (htps : 0 < tps) (hms : ms ≠ 0) : 0 < ticksFor tps ms := by
  have := Nat.mul_pos (Nat.pos_of_ne_zero hms) htps
  unfold ticksFor
  omega

/-- The deadline is late enough if what rounding has added makes up for the part of the tick that was over and for
the cycles that `tps` ticks fall short of a second. -/
theorem late_enough_iff {d ms : ℕ} (cycle : ℕ) (hd : 0 < d) (hn : 0 < ticksFor (pitOscFreq / d) ms) :
    ms * pitOscFreq ≤ ((cycle / d + ticksFor (pitOscFreq / d) ms) * d - cycle) * 1000 ↔
      1000 * (cycle % d) + ms * (pitOscFreq % d) ≤ d * surplus (pitOscFreq / d) ms := by
  set n := ticksFor (pitOscFreq / d) ms with hndef
  have hround := ticksFor_surplus (pitOscFreq / d) ms
  rw [← hndef] at hround
  have hw : (cycle / d + n) * d - cycle = n * d - cycle % d := by
    have hc : cycle = d * (cycle / d) + cycle % d := (Nat.div_add_mod cycle d).symm
    have hsplit : (cycle / d + n) * d = d * (cycle / d) + n * d := by ring
    omega
  have hphase : cycle % d ≤ n * d := (Nat.mod_lt cycle hd).le.trans (Nat.le_mul_of_pos_left d hn)
  have hosc : ms * pitOscFreq = ms * (pitOscFreq / d) * d + ms * (pitOscFreq % d) := by
    calc ms * pitOscFreq = ms * (d * (pitOscFreq / d) + pitOscFreq % d) := by rw [Nat.div_add_mod]
      _ = ms * (pitOscFreq / d) * d + ms * (pitOscFreq % d) := by ring
  have hticks : n * d * 1000 = ms * (pitOscFreq / d) * d + d * surplus (pitOscFreq / d) ms := by
    calc n * d * 1000 = 1000 * n * d := by ring
      _ = ms * (pitOscFreq / d) * d + d * surplus (pitOscFreq / d) ms := by rw [hround]; ring
  rw [hw, Nat.sub_mul, hticks, hosc]
  omega

theorem schedHasRunnable_state {s s' : State} {other : Bool} (h : schedHasRunnable s = some (s', other)) : s' = s := by
  unfold schedHasRunnable at h
  obtain ⟨found, -, h⟩ := Option.bind_eq_some_iff.mp h
  cases h
  exact schedUnlockIrq_schedLockIrq s

theorem timerSleepMs_sleeps {ms : ℕ} {t : Timer} {s : State} {c : TaskRef} {r : Option State}
    (hc : s.currentTask = some c) (hid : s.id c ≠ 0) :
    timerSleepMs ms t s = some (.sleeps r) ↔ t.ticksPerSecond ≠ 0 ∧ ms ≠ 0 ∧ s.irqsEnabled = true ∧
      (schedHasRunnable s).map Prod.snd = some true ∧ r = schedSleepUntil (sleepDeadline ms t) s := by
  unfold timerSleepMs
  by_cases h0 : t.ticksPerSecond = 0 ∨ ms = 0
  · rw [if_pos h0]
    simp only [Option.some.injEq, reduceCtorEq, false_iff]
    tauto
  · rw [if_neg h0]
    by_cases hirq : s.irqsEnabled = true
    · simp only [hirq, Bool.not_true, Bool.false_eq_true, if_false, hc, if_neg hid]
      cases hrun : schedHasRunnable s with
      | none => simp
      | some found =>
        obtain ⟨s', other⟩ := found
        obtain rfl := schedHasRunnable_state hrun
        cases other with
        | false => simp
        | true =>
          simp only [Option.bind_eq_bind, Option.bind_some, Bool.not_true, Bool.false_eq_true, if_false,
            Option.some.injEq, SleepCall.sleeps.injEq, Option.map_some, true_and]
          tauto
    · simp [hirq]

theorem callback_wakes {c : TaskRef} {deadline : ℕ} {s : State} (h : Asleep c deadline s) (t : Timer) (regs : Bool) :
    ∃ s', timerCallback regs t s = some ({ t with tickCount := u32 (t.tickCount + 1) }, s') ∧
      (s'.state c = .ready ↔ deadline ≠ 0 ∧ nonneg32 (sub32 (u32 (t.tickCount + 1)) deadline) = true) ∧
      (s'.state c ≠ .ready → Asleep c deadline s') := by
  obtain ⟨s', n, hcall, hwakes, hstays⟩ := (h.schedTick regs).call (u32 (t.tickCount + 1))
  obtain ⟨s'', m, hcall', hinv, -⟩ := schedWakeExpired_inv (h.schedTick regs).inv (u32 (t.tickCount + 1))
  obtain rfl : s' = s'' := congrArg Prod.fst (Option.some.inj (hcall.symm.trans hcall'))
  have hqueue : s'.OnQueue .ready c ↔ s'.state c = .ready := by
    obtain ⟨L, hchains, -, hready, -⟩ := hinv.partition.queues
    exact (hchains.onQueue_iff .ready c).trans (hready c)
  refine ⟨s', ?_, hqueue.symm.trans hwakes, fun hno => hstays (hqueue.not.mpr hno)⟩
  simp only [timerCallback, hcall, Option.bind_eq_bind, Option.bind_some]

section

variable {t t₁ : Timer} {s₀ s₁ : State} {c : TaskRef} {n : ℕ}

theorem due_iff {k deadline : ℕ} (hk : k ≤ deadline) (hnear : deadline - k < 2 ^ 31) :
    nonneg32 (sub32 k deadline) = true ↔ k = deadline := by
  unfold nonneg32 sub32 u32
  simp only [decide_eq_true_eq]
  omega

theorem dozing_asleep (hn : 0 < n) (hnear : n < 2 ^ 31) (hfar : t.tickCount + n < 2 ^ 32)
    (h : Asleep c (t.tickCount + n) s₀) (hrun : Dozing c t s₀ t₁ s₁) :
    Asleep c (t.tickCount + n) s₁ ∧ t.tickCount ≤ t₁.tickCount ∧ t₁.tickCount < t.tickCount + n := by
  induction hrun with
  | start _ => exact ⟨h, le_refl _, by omega⟩
  | other _ hstays hnext ih => exact ⟨ih.1.leads (.tail .refl hstays hnext), ih.2⟩
  | @tick t₂ t' s s' regs _ hcall hblk ih =>
    obtain ⟨hs, hlo, hhi⟩ := ih
    obtain ⟨s₂, hcall', hwakes, hstays⟩ := callback_wakes hs t₂ regs
    rw [hcall] at hcall'
    cases hcall'
    have hno : s'.state c ≠ .ready := by
      rw [hblk]
      decide
    have hword : u32 (t₂.tickCount + 1) = t₂.tickCount + 1 := u32_of_lt (by omega)
    have hnot : t₂.tickCount + 1 ≠ t.tickCount + n := fun e => by
      refine hno (hwakes.mpr ⟨by omega, ?_⟩)
      rw [hword, due_iff (by omega) (by omega)]
      exact e
    refine ⟨hstays hno, ?_, ?_⟩
    · simp only [hword]
      omega
    · simp only [hword]
      omega

theorem exists_dozing (hnear : n < 2 ^ 31) (hfar : t.tickCount + n < 2 ^ 32) (h : Asleep c (t.tickCount + n) s₀) {k : ℕ}
    (hk : k < n) : ∃ t₁ s₁, Dozing c t s₀ t₁ s₁ ∧ t₁.tickCount = t.tickCount + k ∧ Asleep c (t.tickCount + n) s₁ := by
  induction k with
  | zero => exact ⟨t, s₀, .start h.blocked, rfl, h⟩
  | succ k ih =>
    obtain ⟨t₁, s₁, hrun, htick, hs⟩ := ih (by omega)
    obtain ⟨s₂, hcall, hwakes, hstays⟩ := callback_wakes hs t₁ true
    have hword : u32 (t₁.tickCount + 1) = t.tickCount + (k + 1) := by
      rw [u32_of_lt (by omega), htick]
      omega
    have hno : s₂.state c ≠ .ready := fun hr => by
      have hdue := (hwakes.mp hr).2
      rw [hword, due_iff (by omega) (by omega)] at hdue
      omega
    exact ⟨_, s₂, .tick hrun hcall (hstays hno).blocked, hword, hstays hno⟩

end

theorem wokenBy_eq {t : Timer} {ms k : ℕ} (hmax : t.ticksPerSecond ≤ 1193182)
    (hnear : ticksFor t.ticksPerSecond ms < 2 ^ 31) (hfar : t.tickCount + ticksFor t.ticksPerSecond ms < 2 ^ 32)
    (h : WokenBy t ms k) : k = t.tickCount + ticksFor t.ticksPerSecond ms := by
  obtain ⟨s, s₀, s₁, s₂, c, t₁, t₂, regs, hreach, hc, hid, hcall, hdoze, htick, hready, rfl⟩ := h
  obtain ⟨htps, hms, -, -, hsleep⟩ := (timerSleepMs_sleeps hc hid).mp hcall
  have hn := ticksFor_pos (Nat.pos_of_ne_zero htps) hms
  rw [sleepDeadline_eq hmax (by omega), u32_of_lt hfar] at hsleep
  have hasleep := schedSleepUntil_blocked (reachable_inv hreach) hc hid hsleep.symm hdoze.first
  obtain ⟨hs₁, hlo, hhi⟩ := dozing_asleep hn hnear hfar hasleep hdoze
  obtain ⟨s', hcall', hwakes, -⟩ := callback_wakes hs₁ t₁ regs
  rw [htick] at hcall'
  cases hcall'
  have hword : u32 (t₁.tickCount + 1) = t₁.tickCount + 1 := u32_of_lt (by omega)
  have hdue := (hwakes.mp hready).2
  rw [hword, due_iff (by omega) (by omega)] at hdue
  rw [← hdue]
  exact hword

theorem exists_sleeper : ∃ s, system.ReachableIf LeavesUnlocked s ∧ s.schedulerLocked = 0 ∧ s.currentTask = some 1 ∧
    s.id 1 ≠ 0 ∧ schedFind (s.id 1) s = some 1 ∧ s.irqsEnabled = true ∧
    (schedHasRunnable s).map Prod.snd = some true := by
  obtain ⟨s, -, hs, ht⟩ := System.exists_reachableIf LeavesUnlocked system_init ([createTask, .yield].map .call)
    (fun s => s.schedulerLocked = 0 ∧ s.currentTask = some 1 ∧ s.id 1 ≠ 0 ∧ schedFind (s.id 1) s = some 1 ∧
      s.irqsEnabled = true ∧ (schedHasRunnable s).map Prod.snd = some true) (by decide +kernel)
  exact ⟨s, hs, of_decide_eq_true ht⟩

theorem exists_wokenBy {t : Timer} {ms : ℕ} (htps : t.ticksPerSecond ≠ 0) (hmax : t.ticksPerSecond ≤ 1193182)
    (hms : ms ≠ 0) (hnear : ticksFor t.ticksPerSecond ms < 2 ^ 31)
    (hfar : t.tickCount + ticksFor t.ticksPerSecond ms < 2 ^ 32) :
    WokenBy t ms (t.tickCount + ticksFor t.ticksPerSecond ms) := by
  obtain ⟨s, hreach, hlock, hc, hid, hfind, hirq, hother⟩ := exists_sleeper
  have hn := ticksFor_pos (Nat.pos_of_ne_zero htps) hms
  obtain ⟨s₀, hsleep, hasleep⟩ : ∃ s₀, schedSleepUntil (t.tickCount + ticksFor t.ticksPerSecond ms) s = some s₀ ∧
      Asleep 1 (t.tickCount + ticksFor t.ticksPerSecond ms) s₀ :=
    schedSleepUntil_asleep (reachable_inv hreach) hlock hc hid hfind
  obtain ⟨t₁, s₁, hdoze, htick, hs₁⟩ := exists_dozing hnear hfar hasleep (k := ticksFor t.ticksPerSecond ms - 1)
    (by omega)
  have hlast : u32 (t₁.tickCount + 1) = t.tickCount + ticksFor t.ticksPerSecond ms := by
    rw [u32_of_lt (by omega), htick]
    omega
  obtain ⟨s₂, hcall, hwakes, -⟩ := callback_wakes hs₁ t₁ true
  rw [hlast] at hcall hwakes
  refine ⟨s, s₀, s₁, s₂, 1, t₁, _, true, hreach, hc, hid, (timerSleepMs_sleeps hc hid).mpr ?_, hdoze, hcall, ?_, rfl⟩
  · rw [sleepDeadline_eq hmax (by omega), u32_of_lt hfar]
    exact ⟨htps, hms, hirq, hother, hsleep.symm⟩
  · exact hwakes.mpr ⟨by omega, (due_iff (le_refl _) (by omega)).mpr rfl⟩

/-- Exactly when `timer_sleep_ms` is never early: if what rounding up to whole ticks has added, in thousandths of a tick,
covers both the part of the running tick that was over at the call and the cycles by which the whole number of ticks per
second falls short of a second. -/
theorem timer_sleep_never_early_iff {hz : ℤ} (hhz : 0 < hz) (callback : BitVec 32) (t : Timer) {cycle ms d tps : ℕ}
    (hd : d = pitDivisor hz) (htps : tps = pitOscFreq / d) (hnear : ticksFor tps ms < 2 ^ 31)
    (hfar : cycle / d + ticksFor tps ms < 2 ^ 32) :
    NeverEarly (timerAt callback hz t cycle) cycle ms ↔
      ms = 0 ∨ 1000 * (cycle % d) + ms * (pitOscFreq % d) ≤ d * surplus tps ms := by
  subst hd htps
  obtain ⟨hlo, hmax⟩ := rate_bounds hz
  have hrate : (timerAt callback hz t cycle).ticksPerSecond = pitOscFreq / pitDivisor hz :=
    timerInit_ticksPerSecond hhz callback t
  have hreload : (timerAt callback hz t cycle).reload = pitDivisor hz := timerInit_reload hhz callback t
  have hticks : (timerAt callback hz t cycle).tickCount = cycle / pitDivisor hz := by
    rw [← timerInit_reload hhz callback t]
    rfl
  by_cases hms : ms = 0
  · -- the call returns at once
    refine iff_of_true (fun k hk => ?_) (Or.inl hms)
    simp [hms]
  · have hn := ticksFor_pos (by omega : 0 < pitOscFreq / pitDivisor hz) hms
    have hiff := late_enough_iff cycle (by have := pitDivisor_bounds hz; omega) hn
    rw [← hrate] at hnear hfar
    rw [← hticks] at hfar
    have hk : ∀ k, WokenBy (timerAt callback hz t cycle) ms k →
        k = cycle / pitDivisor hz + ticksFor (pitOscFreq / pitDivisor hz) ms := fun k h => by
      rw [wokenBy_eq (hrate ▸ hmax) hnear hfar h, hticks, hrate]
    rw [or_iff_right hms, ← hiff]
    constructor
    · intro h
      have hlate := h _ (exists_wokenBy (by omega) (hrate ▸ hmax) hms hnear hfar)
      rwa [hreload, hticks, hrate] at hlate
    · intro h k hwoken
      rw [hk k hwoken, hreload]
      exact h

/-- Half a tick at the rate that the kernel boots with, called for in the first half of a tick. -/
theorem timer_sleep_never_early_half : NeverEarly (timerAt 7 100 bootTimer 3000000) 3000000 5 :=
  (timer_sleep_never_early_iff (by decide) 7 bootTimer (show 11931 = pitDivisor 100 by decide)
    (show 100 = pitOscFreq / 11931 by decide) (by decide) (by decide)).mpr (Or.inr (by decide))

/-- A sleep of one tick called for in the last cycle of a tick lasts a single cycle. -/
theorem timer_sleep_early : ¬NeverEarly (timerAt 7 100 bootTimer 11930) 11930 10 := by
  intro h
  have hwoken : WokenBy (timerAt 7 100 bootTimer 11930) 10 1 :=
    exists_wokenBy (by decide) (by decide) (by decide) (by decide) (by decide)
  exact absurd (h 1 hwoken) (by decide)

end Novium.Time
