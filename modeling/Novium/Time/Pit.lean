import Novium.Lib.Word
import Novium.Arch.Pic
import Mathlib.Tactic.Ring

/-! The timer of `arch/x86_32/kernel/pit.c`: programming channel 0, and the conversions
between milliseconds and ticks, which avoid a 64-bit division by splitting the seconds off. -/

namespace Novium.Time

open Novium.Lib Novium.Arch

def pitOscFreq : ℕ := 1193182

def pitMaxDivisor : ℕ := 65535

structure Timer where
  tickCount : ℕ
  ticksPerSecond : ℕ
  /-- The reload value of channel 0, put together from the two bytes that were sent. -/
  reload : ℕ
  pic : Pic

def pitDivisor (hz : ℤ) : ℕ :=
  let divisor := pitOscFreq / hz.toNat
  if divisor = 0 then 1 else if divisor > pitMaxDivisor then pitMaxDivisor else divisor

/-- The handler is the address of `timer_callback`. -/
def timerInit (callback : BitVec 32) (hz : ℤ) (t : Timer) : Timer :=
  if hz ≤ 0 then t
  else
    let divisor := pitDivisor hz
    { t with
      reload := divisor % 256 + 256 * (divisor / 256 % 256)
      ticksPerSecond := pitOscFreq / divisor
      pic := irqRegister 0 callback t.pic }

def timerUptimeMs (t : Timer) : ℕ :=
  if t.ticksPerSecond = 0 then 0
  else
    let secs := t.tickCount / t.ticksPerSecond
    let rem := t.tickCount % t.ticksPerSecond
    let frac := u32 (rem * 1000) / t.ticksPerSecond
    u64 (u64 (secs * 1000) + frac)

def sleepDeadline (ms : ℕ) (t : Timer) : ℕ :=
  let secs := ms / 1000
  let rem := ms % 1000
  u32 (u32 (t.tickCount + u32 (secs * t.ticksPerSecond)) + u32 (u32 (rem * t.ticksPerSecond) + 999) / 1000)

/-- `ms` milliseconds in ticks, rounded up. -/
def ticksFor (tps ms : ℕ) : ℕ := (ms * tps + 999) / 1000

theorem pitDivisor_bounds (hz : ℤ) : 1 ≤ pitDivisor hz ∧ pitDivisor hz ≤ pitMaxDivisor := by
  simp only [pitDivisor, pitMaxDivisor]
  generalize pitOscFreq / hz.toNat = q
  by_cases h0 : q = 0
  · simp [h0]
  · by_cases hmax : q > 65535
    · simp [h0, hmax]
    · simp [h0, hmax]
      omega

theorem timerInit_reload {hz : ℤ} (h : 0 < hz) (callback : BitVec 32) (t : Timer) :
    (timerInit callback hz t).reload = pitDivisor hz := by
  have hb := pitDivisor_bounds hz
  simp only [timerInit, if_neg (not_le.mpr h)]
  unfold pitMaxDivisor at hb
  omega

theorem timerInit_ticksPerSecond {hz : ℤ} (h : 0 < hz) (callback : BitVec 32) (t : Timer) :
    (timerInit callback hz t).ticksPerSecond = pitOscFreq / pitDivisor hz := by
  simp only [timerInit, if_neg (not_le.mpr h)]

theorem rate_bounds (hz : ℤ) : 18 ≤ pitOscFreq / pitDivisor hz ∧ pitOscFreq / pitDivisor hz ≤ 1193182 := by
  obtain ⟨hlo, hhi⟩ := pitDivisor_bounds hz
  constructor
  · calc 18 = pitOscFreq / pitMaxDivisor := by decide
      _ ≤ pitOscFreq / pitDivisor hz := Nat.div_le_div_left hhi hlo
  · exact Nat.div_le_self _ _

theorem split_div (n m k : ℕ) (hm : 0 < m) : n / m * k + n % m * k / m = n * k / m := by
  have hn : n * k = n % m * k + m * (n / m * k) := by
    calc n * k = (m * (n / m) + n % m) * k := by rw [Nat.div_add_mod]
      _ = n % m * k + m * (n / m * k) := by ring
  rw [hn, Nat.add_mul_div_left _ _ hm, Nat.add_comm]

theorem split_ticks (ms tps : ℕ) : ms / 1000 * tps + (ms % 1000 * tps + 999) / 1000 = ticksFor tps ms := by
  have hms : ms * tps + 999 = ms % 1000 * tps + 999 + 1000 * (ms / 1000 * tps) := by
    calc ms * tps + 999 = (1000 * (ms / 1000) + ms % 1000) * tps + 999 := by rw [Nat.div_add_mod]
      _ = ms % 1000 * tps + 999 + 1000 * (ms / 1000 * tps) := by ring
  rw [ticksFor, hms, Nat.add_mul_div_left _ _ (by decide), Nat.add_comm]

theorem uptime_split {t : Timer} (htps : 0 < t.ticksPerSecond) (hmax : t.ticksPerSecond ≤ 1193182)
    (htick : t.tickCount < 2 ^ 32) :
    t.tickCount % t.ticksPerSecond * 1000 < 2 ^ 32 ∧
      t.tickCount / t.ticksPerSecond * 1000 + t.tickCount % t.ticksPerSecond * 1000 / t.ticksPerSecond < 2 ^ 64 := by
  have hrem := Nat.mod_lt t.tickCount htps
  have hsecs := Nat.div_le_self t.tickCount t.ticksPerSecond
  have hfrac := Nat.div_le_self (t.tickCount % t.ticksPerSecond * 1000) t.ticksPerSecond
  omega

theorem timerUptimeMs_eq {t : Timer} (htps : 0 < t.ticksPerSecond) (hmax : t.ticksPerSecond ≤ 1193182)
    (htick : t.tickCount < 2 ^ 32) : timerUptimeMs t = t.tickCount * 1000 / t.ticksPerSecond := by
  obtain ⟨hrem, hsum⟩ := uptime_split htps hmax htick
  have hsecs : t.tickCount / t.ticksPerSecond * 1000 < 2 ^ 64 := lt_of_le_of_lt (Nat.le_add_right _ _) hsum
  simp only [timerUptimeMs, if_neg htps.ne']
  rw [u32_of_lt hrem, u64_of_lt hsecs, u64_of_lt hsum]
  exact split_div t.tickCount t.ticksPerSecond 1000 htps

theorem deadline_split {ms tps : ℕ} (hmax : tps ≤ 1193182) (hfits : ticksFor tps ms < 2 ^ 32) :
    ms / 1000 * tps < 2 ^ 32 ∧ ms % 1000 * tps < 2 ^ 32 ∧ ms % 1000 * tps + 999 < 2 ^ 32 := by
  have hsecs := split_ticks ms tps
  have hrem := Nat.mul_le_mul (show ms % 1000 ≤ 999 by omega) hmax
  omega

theorem sleepDeadline_eq {t : Timer} {ms : ℕ} (hmax : t.ticksPerSecond ≤ 1193182)
    (hfits : ticksFor t.ticksPerSecond ms < 2 ^ 32) :
    sleepDeadline ms t = u32 (t.tickCount + ticksFor t.ticksPerSecond ms) := by
  obtain ⟨hsecs, hrem, hround⟩ := deadline_split hmax hfits
  have hsplit := split_ticks ms t.ticksPerSecond
  simp only [sleepDeadline]
  rw [u32_of_lt hsecs, u32_of_lt hrem, u32_of_lt hround, ← hsplit]
  unfold u32
  omega

/-- At every rate that `timer_init` can program, both conversions are those of unbounded arithmetic: the products and
sums that they are split into fit a word, all but the additions to the tick count. -/
theorem timer_conversions_exact (callback : BitVec 32) (t : Timer) {hz : ℤ} (hhz : 0 < hz) {tps : ℕ}
    (htps : (timerInit callback hz t).ticksPerSecond = tps) :
    (18 ≤ tps ∧ tps ≤ 1193182) ∧
      (∀ tick < 2 ^ 32, timerUptimeMs { timerInit callback hz t with tickCount := tick } = tick * 1000 / tps ∧
        tick % tps * 1000 < 2 ^ 32 ∧ tick / tps * 1000 + tick % tps * 1000 / tps < 2 ^ 64) ∧
      ∀ tick < 2 ^ 32, ∀ ms < 2 ^ 32, ticksFor tps ms < 2 ^ 32 →
        sleepDeadline ms { timerInit callback hz t with tickCount := tick } = u32 (tick + ticksFor tps ms) ∧
        ms / 1000 * tps < 2 ^ 32 ∧ ms % 1000 * tps < 2 ^ 32 ∧ ms % 1000 * tps + 999 < 2 ^ 32 := by
  subst htps
  obtain ⟨hlo, hhi⟩ := rate_bounds hz
  rw [← timerInit_ticksPerSecond hhz callback t] at hlo hhi
  have hpos : 0 < (timerInit callback hz t).ticksPerSecond := by omega
  refine ⟨⟨hlo, hhi⟩, fun tick htick => ?_, fun tick _ ms _ hfits => ?_⟩
  · exact ⟨timerUptimeMs_eq hpos hhi htick, uptime_split (t := { timerInit callback hz t with tickCount := tick })
      hpos hhi htick⟩
  · exact ⟨sleepDeadline_eq hhi hfits, deadline_split hhi hfits⟩

def bootTimer : Timer := ⟨0, 0, 0, picInit bootPic⟩

/-- The highest rate, and a sleep of half an hour and 999 milliseconds that wraps the counter. -/
theorem timer_conversions_exact_fastest :
    sleepDeadline 1800999 { timerInit 7 2000000 bootTimer with tickCount := 4294967295 } =
      u32 (4294967295 + ticksFor 1193182 1800999) ∧ 999 * 1193182 + 999 < 2 ^ 32 := by
  have htps : (timerInit 7 2000000 bootTimer).ticksPerSecond = 1193182 := by decide
  have h := (timer_conversions_exact 7 bootTimer (show (0 : ℤ) < 2000000 by decide) htps).2.2 4294967295 (by decide)
    1800999 (by decide) (by decide)
  exact ⟨h.1, h.2.2.2⟩

end Novium.Time
