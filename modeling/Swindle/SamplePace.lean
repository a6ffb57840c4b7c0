import Swindle.SystemTimer

/-!
# When the time goes on

The samples of the counter come at a pace of their own, and the reload comes in
between. What the time and the delays are worth at a pace is decided by the
latest samples it allows: these can always miss the ticks before a reload.
-/

set_option autoImplicit false

namespace Swindle.SamplePace
open Swindle.SystemTimer

section Pace
variable (k : CoreClock)

/-- Two calls of `lnGetUs64` at this pace, the first at microsecond `m` of a period. -/
def TimeSafe (gap m : ℕ) : Prop :=
  ∀ q i, Paced q gap → micros k (q.tick (i+1)) = m → TimeAdvances k q i

/-- A delay at this pace, called at microsecond `m` of a period. -/
def DelaySafe (gap m : ℕ) (wait : BitVec 32) : Prop :=
  ∀ q i, Paced q gap → micros k (q.tick (i+1)) = m → DelayKept k q wait i

/-- Calls that take their samples at the ticks `x n`. -/
def sampled (x : ℕ → ℕ) (h : ∀ n, x n + 3 ≤ x (n+1)) : Schedule where
  tick j := x (j/3) + j%3
  later j := by
    have hn := h (j/3)
    by_cases hj : j%3 = 2
    · have h1 : (j+1)/3 = j/3+1 := by omega
      have h2 : (j+1)%3 = 0 := by omega
      rw [h1, h2]
      omega
    · have h1 : (j+1)/3 = j/3 := by omega
      have h2 : (j+1)%3 = j%3+1 := by omega
      rw [h1, h2]
      omega

theorem sampled_paced (x : ℕ → ℕ) (h : ∀ n, x n + 3 ≤ x (n+1)) (gap : ℕ)
    (hgap : ∀ n, x (n+1) ≤ x n + gap) : Paced (sampled x h) gap := by
  intro j
  have h1 : (j+3)/3 = j/3+1 := by omega
  have h2 : (j+3)%3 = j%3 := by omega
  have hn := hgap (j/3)
  simp only [sampled, h1, h2]
  omega

/-- How far the next sample keeps away in order to miss the ticks from `target` to
the reload: it goes to the tick before them, and from there behind the reload. -/
def evade (gap target z : ℕ) : ℕ :=
  max 3 (min gap (if z + 1 < target then (if target - 1 - z ≤ gap then target - 1 - z else 3)
    else period k - z))

/-- Samples that evade the target from tick `start` on, and one before it. -/
def evading (gap target start : ℕ) : ℕ → ℕ
  | 0 => start - 3
  | n+1 => (fun t => t + evade k gap target (phase k t))^[n] start

theorem evading_next (gap target start n : ℕ) : evading k gap target start (n+2) =
    evading k gap target start (n+1) +
      evade k gap target (phase k (evading k gap target start (n+1))) := by
  rw [evading, Function.iterate_succ_apply']
  rfl

theorem evading_steps (gap target start : ℕ) (hg : 3 ≤ gap) (hs : 3 ≤ start) (n : ℕ) :
    evading k gap target start n + 3 ≤ evading k gap target start (n+1) ∧
      evading k gap target start (n+1) ≤ evading k gap target start n + gap := by
  cases n with
  | zero =>
    simp only [evading, Function.iterate_zero, id_eq]
    omega
  | succ n =>
    rw [evading_next, evade]
    omega

/-- The tick the samples are taken at, and the microsecond it belongs to. -/
theorem phase_start {z : ℕ} (hz : z < period k) : phase k (period k + z) = z := by
  rw [phase, Nat.add_mod_left, Nat.mod_eq_of_lt hz]

theorem phase_add {t s : ℕ} (h : phase k t + s < period k) : phase k (t+s) = phase k t + s := by
  have hdiv := Nat.div_add_mod t (period k)
  rw [← phase] at hdiv
  rw [phase, ← hdiv, add_assoc, Nat.mul_add_mod, hdiv]
  exact Nat.mod_eq_of_lt h

theorem phase_reload {t s : ℕ} (h : period k ≤ phase k t + s)
    (h2 : phase k t + s < 2*period k) : phase k (t+s) = phase k t + s - period k := by
  have hdiv := Nat.div_add_mod t (period k)
  rw [← phase] at hdiv
  rw [phase, ← hdiv, add_assoc, Nat.mul_add_mod, hdiv, Nat.mod_eq_sub_mod h]
  exact Nat.mod_eq_of_lt (by omega)

/-- Before the target, and not so close that the next sample could not stop at the
tick before it. -/
def Clear (target z : ℕ) : Prop := z + 1 = target ∨ z + 4 ≤ target

variable {k}

theorem evade_clear {gap target t : ℕ} (hg : 5 ≤ gap) (h4 : 4 ≤ target) (hp : 4000 ≤ period k)
    (hlt : target < period k) (hroom : period k < target + gap)
    (h : phase k t = target ∨ Clear target (phase k t)) :
    Clear target (phase k (t + evade k gap target (phase k t))) := by
  unfold Clear at h ⊢
  by_cases hz : phase k t + 1 < target
  · have hd : phase k t + 4 ≤ target := by omega
    by_cases hnear : target - 1 - phase k t ≤ gap
    · have he : evade k gap target (phase k t) = target - 1 - phase k t := by
        rw [evade, if_pos hz, if_pos hnear]
        omega
      rw [he, phase_add k (by omega)]
      omega
    · have he : evade k gap target (phase k t) = 3 := by
        rw [evade, if_pos hz, if_neg hnear]
        omega
      rw [he, phase_add k (by omega)]
      omega
  · have he : evade k gap target (phase k t) = max 3 (period k - phase k t) := by
      rw [evade, if_neg hz]
      omega
    rw [he, phase_reload k (by omega) (by omega)]
    omega

theorem evading_clear {gap target start : ℕ} (hg : 5 ≤ gap) (h4 : 4 ≤ target)
    (hp : 4000 ≤ period k) (hlt : target < period k) (hroom : period k < target + gap)
    (h : phase k start = target ∨ Clear target (phase k start)) (n : ℕ) :
    Clear target (phase k (evading k gap target start (n+2))) := by
  induction n with
  | zero => exact evading_next k gap target start 0 ▸ evade_clear hg h4 hp hlt hroom h
  | succ n ih =>
    rw [evading_next]
    exact evade_clear hg h4 hp hlt hroom (.inr ih)

/-- A clock, a pace and a microsecond of the period for which samples can be
taken as late as the pace allows. -/
structure Reachable (k : CoreClock) (gap m : ℕ) : Prop where
  clock : 4 ≤ microTicks k
  pace : 5 ≤ gap
  micro : m*microTicks k < period k

section Reached
variable {gap m : ℕ} (hr : Reachable k gap m)
include hr

theorem reached_period : 4000 ≤ period k := by
  have hp := (period_bounds k).1
  have hc := hr.clock
  omega

/-- A schedule of that pace with samples that evade the target. -/
theorem evading_schedule (target z : ℕ) :
    ∃ q : Schedule, Paced q gap ∧ ∀ n, q.tick (3*n+3) =
      evading k gap target (period k + z) (n+1) := by
  have hp := reached_period hr
  have hsteps := evading_steps k gap target (period k + z) (by have := hr.pace; omega) (by omega)
  refine ⟨sampled _ (fun n => (hsteps n).1),sampled_paced _ _ gap (fun n => (hsteps n).2),?_⟩
  intro n
  have h1 : (3*n+3)/3 = n+1 := by omega
  have h2 : (3*n+3)%3 = 0 := by omega
  simp only [sampled, h1, h2, add_zero]

theorem time_safe_iff : TimeSafe k gap m ↔ m = 0 ∨ (m+1)*microTicks k + gap ≤ period k := by
  have hc := hr.clock
  have hg := hr.pace
  have hm := hr.micro
  have hp := reached_period hr
  have hmul : (m+1)*microTicks k = m*microTicks k + microTicks k := by rw [Nat.add_mul, one_mul]
  constructor
  · intro h
    by_contra hn
    rw [not_or, not_le, hmul] at hn
    obtain ⟨h0,hlate⟩ := hn
    have h1 : microTicks k ≤ m*microTicks k := Nat.le_mul_of_pos_left _ (Nat.pos_of_ne_zero h0)
    -- the first sample takes the last tick of its microsecond, the second one follows the reload
    obtain ⟨z,hz⟩ : ∃ z, z = min (m*microTicks k + microTicks k - 1) (period k - 1) := ⟨_,rfl⟩
    obtain ⟨q,hq,htick⟩ := evading_schedule hr (m*microTicks k) z
    have hfirst : q.tick 3 = period k + z := htick 0
    have hphase : phase k (q.tick 3) = z := by rw [hfirst, phase_start k (by omega)]
    have hmicro : micros k (q.tick 3) = m := by
      rw [micros, hphase]
      exact Nat.div_eq_of_lt_le (by omega) (by rw [hmul]; omega)
    have hadv := (time_advances_iff k q 2).mp (h q 2 hq hmicro)
    have hnext : q.tick 6 = q.tick 3 + evade k gap (m*microTicks k) (phase k (q.tick 3)) := by
      rw [show q.tick 6 = _ from htick 1, show q.tick 3 = _ from htick 0]
      exact evading_next k gap _ _ 0
    have he : evade k gap (m*microTicks k) z = max 3 (period k - z) := by
      rw [evade, if_neg (by omega)]
      omega
    rw [hphase, he] at hnext
    have hsecond : micros k (q.tick 6) = 0 := by
      rw [micros, hnext, phase_reload k (by omega) (by omega), hphase]
      exact Nat.div_eq_of_lt (by omega)
    rw [hmicro, hsecond] at hadv
    exact h0 (Nat.le_zero.mp hadv)
  · rintro h q i hq hfirst
    rw [time_advances_iff, hfirst]
    rcases h with rfl | h
    · exact Nat.zero_le _
    · have hlt : phase k (q.tick (i+1)) < (m+1)*microTicks k := by
        rw [← Nat.div_lt_iff_lt_mul (micro_pos k), ← hfirst]
        exact Nat.lt_succ_self _
      have hnext : q.tick (i+4) ≤ q.tick (i+1) + gap := hq (i+1)
      obtain ⟨s,hs⟩ := Nat.exists_eq_add_of_le (tick_mono q (show i+1 ≤ i+4 by omega))
      rw [hs, ← hfirst, micros, micros, phase_add k (by omega)]
      exact Nat.div_le_div_right (Nat.le_add_right _ _)

theorem delay_safe_iff (wait : BitVec 32) : DelaySafe k gap m wait ↔
    m + wait.toNat = 0 ∨ (m + wait.toNat)*microTicks k + gap ≤ period k := by
  have hc := hr.clock
  have hm := hr.micro
  have hp := reached_period hr
  have hmul : (m + wait.toNat)*microTicks k = m*microTicks k + wait.toNat*microTicks k :=
    Nat.add_mul _ _ _
  constructor
  · intro h
    by_contra hn
    rw [not_or, not_le] at hn
    obtain ⟨h0,hlate⟩ := hn
    obtain ⟨target,ht⟩ : ∃ target, target = (m + wait.toNat)*microTicks k := ⟨_,rfl⟩
    rw [← ht] at hlate
    obtain ⟨q,hq,htick⟩ := evading_schedule hr target (m*microTicks k)
    have hfirst : q.tick 3 = period k + m*microTicks k := htick 0
    have hphase : phase k (q.tick 3) = m*microTicks k := by rw [hfirst, phase_start k hm]
    have hmicro : micros k (q.tick 3) = m := by
      rw [micros, hphase]
      exact Nat.mul_div_cancel _ (micro_pos k)
    obtain ⟨n,hseen⟩ := (delay_kept_iff k q wait 2).mp (h q 2 hq hmicro)
    have htarget : targetTick k q wait 2 = target := by
      rw [ht, ← hmicro]
      rfl
    rw [htarget, show 2+3+3*n+1 = 3*(n+1)+3 by omega, htick (n+1)] at hseen
    have hlt : target < period k := lt_of_le_of_lt hseen (phase_lt k _)
    have h4 : 4 ≤ target := by
      rw [ht]
      exact le_trans hc (Nat.le_mul_of_pos_left _ (Nat.pos_of_ne_zero h0))
    have hstart : phase k (period k + m*microTicks k) = target ∨
        Clear target (phase k (period k + m*microTicks k)) := by
      rw [phase_start k hm, ht, hmul]
      by_cases hw : wait.toNat = 0
      · exact .inl (by rw [hw, Nat.zero_mul, Nat.add_zero])
      · have hle := Nat.le_mul_of_pos_left (microTicks k) (Nat.pos_of_ne_zero hw)
        exact .inr (.inr (by omega))
    have hclear : Clear target (phase k (evading k gap target _ (n+1+1))) :=
      evading_clear hr.pace h4 hp hlt (by omega) hstart n
    rcases hclear with hcl | hcl <;> omega
  · rintro h q i hq hfirst
    have htarget : targetTick k q wait i = (m + wait.toNat)*microTicks k := by
      rw [← hfirst]
      rfl
    rw [delay_kept_iff]
    rcases h with h | h
    · exact ⟨0,by rw [htarget, h, Nat.zero_mul]; exact Nat.zero_le _⟩
    · exact paced_target_seen k q wait i gap hq (by rw [htarget]; exact h)

end Reached
end Pace
def everyTick (t : ℕ) : Schedule := ⟨fun i => t+i,fun _ => Nat.lt_succ_self _⟩

end Swindle.SamplePace
