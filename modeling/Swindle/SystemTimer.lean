import Mathlib

/-!
# The system timer

The counter of the timer starts at zero and is set back to zero by the hardware
every millisecond. The functions that tell the time, and the delay that rests on
them, take it for a counter that never comes back.
-/

set_option autoImplicit false

namespace Swindle.SystemTimer

/-- `SystemCoreClock`, at least one tick for each microsecond. -/
structure CoreClock where
  hz : BitVec 32
  micro : 1000000 ≤ hz.toNat

/-- What both clock initialisations of the firmware set. -/
def systemCoreClock : CoreClock := ⟨8*18*1000000,by decide⟩

structure Stk where
  ctlr : BitVec 32
  ctn : BitVec 64
  cmp : BitVec 64
  deriving DecidableEq, Repr

def systickSten : BitVec 32 := 1 <<< 0
def systickStie : BitVec 32 := 1 <<< 1
def systickStclk : BitVec 32 := 1 <<< 2
def systickStre : BitVec 32 := 1 <<< 3
def systickModeUp : BitVec 32 := 0 <<< 4
def systickInit : BitVec 32 := 1 <<< 5

def Stk.off : Stk := ⟨0,0,0⟩

/-- One tick of the core clock. A running counter that meets the compare value
is reloaded with zero, if that is asked for. -/
def Stk.tick (s : Stk) : Stk :=
  if s.ctlr &&& systickSten = 0 then s
  else if s.ctlr &&& systickStre ≠ 0 ∧ s.ctn + 1 = s.cmp then { s with ctn := 0 }
  else { s with ctn := s.ctn + 1 }

/-- Writing the control register; `SYSTICK_INIT` resets the counter. -/
def Stk.writeCtlr (v : BitVec 32) (s : Stk) : Stk :=
  { s with ctlr := v, ctn := if v &&& systickInit ≠ 0 then 0 else s.ctn }

section Code
variable (k : CoreClock)

/-- `lnSystemTimerInit` -/
def tickPerUs : BitVec 64 := (k.hz / 1000000).setWidth 64

def initTimerIrq (s : Stk) : Stk :=
  let now := s.ctn
  let cmp := now + (k.hz / 1000).setWidth 64
  Stk.writeCtlr (systickSten ||| systickStie ||| systickStclk ||| systickModeUp ||| systickInit |||
    systickStre) { s with cmp := cmp }

/-- When the program reads a register of the timer: its `i`-th read takes place
`tick i` ticks after the timer has been started. -/
structure Schedule where
  tick : ℕ → ℕ
  later : ∀ i, tick i < tick (i+1)

variable (q : Schedule)

def ctn (i : ℕ) : BitVec 64 := (Stk.tick^[q.tick i] (initTimerIrq k Stk.off)).ctn

def ctnHi (i : ℕ) : BitVec 32 := (ctn k q i >>> 32).setWidth 32
def ctnLo (i : ℕ) : BitVec 32 := (ctn k q i).setWidth 32

/-- The value, and the number of the next read; nothing if the fuel does not last. -/
def lnGetCycle64 : ℕ → ℕ → Option (BitVec 64 × ℕ)
  | 0, _ => none
  | fuel+1, i =>
    let high := ctnHi k q i
    let low := ctnLo k q (i+1)
    let high2 := ctnHi k q (i+2)
    if high = high2 then
      let r := high.setWidth 64
      some ((r <<< 32) + low.setWidth 64,i+3)
    else lnGetCycle64 fuel (i+3)

def lnGetUs64 (fuel i : ℕ) : Option (BitVec 64 × ℕ) :=
  match lnGetCycle64 k q fuel i with
  | none => none
  | some (tick,j) => some (tick / tickPerUs k,j)

/-- The loop of `lnDelayUs`. -/
def delayLoop (target : BitVec 64) : ℕ → ℕ → Option ℕ
  | 0, _ => none
  | fuel+1, i =>
    match lnGetUs64 k q (fuel+1) i with
    | none => none
    | some (us,j) => if us < target then delayLoop target fuel j else some j

def lnDelayUs (wait : BitVec 32) (fuel i : ℕ) : Option ℕ :=
  match lnGetUs64 k q fuel i with
  | none => none
  | some (us,j) => delayLoop k q (us + wait.setWidth 64) fuel j

end Code

/-! ## What the counter shows -/

section Counter
variable (k : CoreClock)

/-- Ticks from one reload to the next, and ticks of a microsecond. -/
def period : ℕ := k.hz.toNat / 1000
def microTicks : ℕ := k.hz.toNat / 1000000

/-- Ticks since the last reload, and the number of reloads. -/
def phase (t : ℕ) : ℕ := t % period k
def lap (t : ℕ) : ℕ := t / period k

def micros (t : ℕ) : ℕ := phase k t / microTicks k

theorem value_toNat {v : ℕ} (h : v < 2^64) : (BitVec.ofNat 64 v).toNat = v := Nat.mod_eq_of_lt h

theorem micro_pos : 0 < microTicks k := Nat.div_pos k.micro (by decide)

theorem period_bounds : 1000*microTicks k ≤ period k ∧ period k < 2^32 := by
  have hlt := k.hz.isLt
  unfold microTicks period
  omega

theorem period_pos : 0 < period k := by
  have hm := micro_pos k
  have hp := (period_bounds k).1
  omega

theorem phase_lt (t : ℕ) : phase k t < period k := Nat.mod_lt t (period_pos k)

theorem tickPerUs_toNat : (tickPerUs k).toNat = microTicks k := by
  rw [tickPerUs, BitVec.toNat_setWidth_of_le (by decide), BitVec.toNat_udiv]
  rfl

def running (c : ℕ) : Stk := { initTimerIrq k Stk.off with ctn := BitVec.ofNat 64 c }

theorem running_cmp (c : ℕ) : (running k c).cmp = BitVec.ofNat 64 (period k) := by
  have hcmp : (running k c).cmp = 0#64 + (k.hz / 1000#32).setWidth 64 := rfl
  have hp := (period_bounds k).2
  apply BitVec.eq_of_toNat_eq
  rw [hcmp, BitVec.zero_add, BitVec.toNat_setWidth_of_le (by decide), BitVec.toNat_udiv,
    value_toNat (by omega : period k < 2^64)]
  rfl

theorem running_tick (c : ℕ) (hc : c < period k) :
    (running k c).tick = running k (if c+1 = period k then 0 else c+1) := by
  have hp := (period_bounds k).2
  have hctlr : (running k c).ctlr = systickSten ||| systickStie ||| systickStclk |||
      systickModeUp ||| systickInit ||| systickStre := rfl
  have hnext : (running k c).ctn + 1 = BitVec.ofNat 64 (c+1) := (BitVec.ofNat_add c 1).symm
  have hmatch : (running k c).ctn + 1 = (running k c).cmp ↔ c+1 = period k := by
    rw [hnext, running_cmp, ← BitVec.toNat_inj, value_toNat (by omega), value_toNat (by omega)]
  have hen : ¬ (running k c).ctlr &&& systickSten = 0 := by rw [hctlr]; decide
  have hre : (running k c).ctlr &&& systickStre ≠ 0 := by rw [hctlr]; decide
  rw [Stk.tick, if_neg hen]
  by_cases h : c+1 = period k
  · rw [if_pos ⟨hre,hmatch.mpr h⟩, if_pos h]
    rfl
  · rw [if_neg (fun hm => h (hmatch.mp hm.2)), if_neg h, hnext]
    rfl

theorem phase_succ (t : ℕ) :
    phase k (t+1) = if phase k t + 1 = period k then 0 else phase k t + 1 := by
  have hlt := phase_lt k t
  have hdiv := Nat.div_add_mod t (period k)
  rw [← phase] at hdiv
  rw [phase, ← hdiv, add_assoc, Nat.mul_add_mod, hdiv]
  split_ifs with h
  · rw [h, Nat.mod_self]
  · exact Nat.mod_eq_of_lt (by omega)

/-- The timer `t` ticks after its start. -/
theorem timer_after (t : ℕ) : Stk.tick^[t] (initTimerIrq k Stk.off) = running k (phase k t) := by
  induction t with
  | zero => rw [phase, Nat.zero_mod]; rfl
  | succ t ih => rw [Function.iterate_succ_apply', ih, running_tick k _ (phase_lt k t), phase_succ]

theorem micros_step (t : ℕ) : micros k (t+1) ≤ micros k t + 1 := by
  have hphase : phase k (t+1) ≤ phase k t + microTicks k := by
    have hm := micro_pos k
    rw [phase_succ]
    split_ifs <;> omega
  calc micros k (t+1) ≤ (phase k t + microTicks k) / microTicks k := Nat.div_le_div_right hphase
    _ = micros k t + 1 := Nat.add_div_right _ (micro_pos k)

/-- Microseconds that the counter counts in the `n` ticks from tick `t` on. -/
def microsCounted (t : ℕ) : ℕ → ℕ
  | 0 => 0
  | n+1 => microsCounted t n + if micros k (t+n) < micros k (t+n+1) then 1 else 0

theorem micros_counted (t n : ℕ) : micros k (t+n) ≤ micros k t + microsCounted k t n := by
  induction n with
  | zero => exact le_refl _
  | succ n ih =>
    have hstep := micros_step k (t+n)
    rw [microsCounted, ← add_assoc]
    split_ifs <;> omega

end Counter

/-! ## What the functions make of it -/

section Functions
variable (k : CoreClock) (q : Schedule)

theorem ctn_phase (i : ℕ) : ctn k q i = BitVec.ofNat 64 (phase k (q.tick i)) := by
  rw [ctn, timer_after]
  rfl

theorem ctn_toNat (i : ℕ) : (ctn k q i).toNat = phase k (q.tick i) := by
  have hp := (period_bounds k).2
  have hlt := phase_lt k (q.tick i)
  rw [ctn_phase, value_toNat (by omega)]

/-- The compare value keeps the counter out of its upper half. -/
theorem ctnHi_zero (i : ℕ) : ctnHi k q i = 0 := by
  have hp := (period_bounds k).2
  have hlt := phase_lt k (q.tick i)
  apply BitVec.eq_of_toNat_eq
  rw [ctnHi, BitVec.toNat_setWidth, BitVec.toNat_ushiftRight, ctn_toNat, Nat.shiftRight_eq_div_pow,
    Nat.div_eq_of_lt (by omega)]
  rfl

theorem cycle_read (fuel i : ℕ) : lnGetCycle64 k q (fuel+1) i =
    some (BitVec.ofNat 64 (phase k (q.tick (i+1))),i+3) := by
  have hp := (period_bounds k).2
  have hlt := phase_lt k (q.tick (i+1))
  have hlow : (ctnLo k q (i+1)).setWidth 64 = BitVec.ofNat 64 (phase k (q.tick (i+1))) := by
    apply BitVec.eq_of_toNat_eq
    rw [ctnLo, BitVec.toNat_setWidth, BitVec.toNat_setWidth, ctn_toNat, value_toNat (by omega),
      Nat.mod_eq_of_lt (by omega : _ < 2^32), Nat.mod_eq_of_lt (by omega : _ < 2^64)]
  have hhigh : ((0 : BitVec 32).setWidth 64 <<< 32) = 0#64 := by decide
  simp only [lnGetCycle64, ctnHi_zero, if_true, hhigh, hlow, BitVec.zero_add]

theorem us_read (fuel i : ℕ) : lnGetUs64 k q (fuel+1) i =
    some (BitVec.ofNat 64 (micros k (q.tick (i+1))),i+3) := by
  have hp := (period_bounds k).2
  have hlt := phase_lt k (q.tick (i+1))
  have hdiv : BitVec.ofNat 64 (phase k (q.tick (i+1))) / tickPerUs k =
      BitVec.ofNat 64 (micros k (q.tick (i+1))) := by
    have hle : micros k (q.tick (i+1)) ≤ phase k (q.tick (i+1)) := Nat.div_le_self _ _
    apply BitVec.eq_of_toNat_eq
    rw [BitVec.toNat_udiv, tickPerUs_toNat, value_toNat (by omega), value_toNat (by omega)]
    rfl
  rw [lnGetUs64, cycle_read]
  simp only [hdiv]

/-- Two calls of `lnGetUs64`, one after the other, do not go back in time. -/
def TimeAdvances (i : ℕ) : Prop :=
  ∃ fuel us j us' j', lnGetUs64 k q fuel i = some (us,j) ∧
    lnGetUs64 k q fuel j = some (us',j') ∧ us ≤ us'

/-- `lnDelayUs` comes to an end, and by its last look at the counter that has
counted `wait` microseconds since its first one. -/
def DelayKept (wait : BitVec 32) (i : ℕ) : Prop :=
  ∃ fuel j, lnDelayUs k q wait fuel i = some j ∧
    wait.toNat ≤ microsCounted k (q.tick (i+1)) (q.tick (j-2) - q.tick (i+1))

/-- No two looks of a loop are further apart than `gap` ticks. -/
def Paced (gap : ℕ) : Prop := ∀ j, q.tick (j+3) ≤ q.tick j + gap

def targetTick (wait : BitVec 32) (i : ℕ) : ℕ :=
  (phase k (q.tick (i+1)) / microTicks k + wait.toNat)*microTicks k

def TargetSeen (wait : BitVec 32) (i : ℕ) : Prop :=
  ∃ n, targetTick k q wait i ≤ phase k (q.tick (i+3+3*n+1))

theorem tick_mono {i j : ℕ} (h : i ≤ j) : q.tick i ≤ q.tick j :=
  monotone_nat_of_le_succ (fun i => (q.later i).le) h

theorem micros_small (t : ℕ) : micros k t < 2^32 := by
  have hp := (period_bounds k).2
  have hlt := phase_lt k t
  have hle : micros k t ≤ phase k t := Nat.div_le_self _ _
  omega

theorem same_lap {a b : ℕ} (hab : a ≤ b) (h : lap k a = lap k b) : micros k a ≤ micros k b := by
  have ha := Nat.div_add_mod a (period k)
  have hb := Nat.div_add_mod b (period k)
  rw [← lap, ← phase] at ha hb
  rw [← h] at hb
  exact Nat.div_le_div_right (by omega)

theorem time_advances_iff (i : ℕ) :
    TimeAdvances k q i ↔ micros k (q.tick (i+1)) ≤ micros k (q.tick (i+4)) := by
  have ha := micros_small k (q.tick (i+1))
  have hb := micros_small k (q.tick (i+4))
  have hcmp : BitVec.ofNat 64 (micros k (q.tick (i+1))) ≤
      BitVec.ofNat 64 (micros k (q.tick (i+4))) ↔
        micros k (q.tick (i+1)) ≤ micros k (q.tick (i+4)) := by
    rw [BitVec.le_def, value_toNat (by omega), value_toNat (by omega)]
  rw [← hcmp]
  constructor
  · rintro ⟨fuel,us,j,us',j',h1,h2,h3⟩
    cases fuel with
    | zero => cases h1
    | succ fuel =>
      rw [us_read] at h1
      cases h1
      rw [us_read] at h2
      cases h2
      exact h3
  · intro h
    exact ⟨1,_,_,_,_,us_read k q 0 i,us_read k q 0 (i+3),h⟩

/-- The loop stops at the first look that finds the target. -/
theorem delay_loop (target : ℕ) (ht : target < 2^64) (fuel i : ℕ) :
    delayLoop k q (BitVec.ofNat 64 target) (fuel+1) i =
      if micros k (q.tick (i+1)) < target then delayLoop k q (BitVec.ofNat 64 target) fuel (i+3)
      else some (i+3) := by
  have hu := micros_small k (q.tick (i+1))
  have hcmp : BitVec.ofNat 64 (micros k (q.tick (i+1))) < BitVec.ofNat 64 target ↔
      micros k (q.tick (i+1)) < target := by
    rw [BitVec.lt_def, value_toNat (by omega), value_toNat ht]
  rw [delayLoop, us_read]
  simp only [hcmp]

theorem delay_loop_seen (target : ℕ) (ht : target < 2^64) (fuel i j : ℕ)
    (h : delayLoop k q (BitVec.ofNat 64 target) fuel i = some j) :
    ∃ n, j = i+3*n+3 ∧ target ≤ micros k (q.tick (i+3*n+1)) := by
  induction fuel generalizing i with
  | zero => cases h
  | succ fuel ih =>
    rw [delay_loop k q target ht] at h
    split_ifs at h with hlt
    · obtain ⟨n,hj,hn⟩ := ih (i+3) h
      refine ⟨n+1,by omega,?_⟩
      have he : i+3*(n+1)+1 = i+3+3*n+1 := by omega
      rw [he]
      exact hn
    · exact ⟨0,(Option.some.inj h).symm,Nat.le_of_not_lt hlt⟩

theorem delay_loop_ends (target : ℕ) (ht : target < 2^64) (n i : ℕ)
    (h : target ≤ micros k (q.tick (i+3*n+1))) :
    ∃ fuel j, delayLoop k q (BitVec.ofNat 64 target) (fuel+1) i = some j := by
  induction n generalizing i with
  | zero => exact ⟨0,i+3,by rw [delay_loop k q target ht, if_neg (Nat.not_lt_of_le h)]⟩
  | succ n ih =>
    have he : i+3*(n+1)+1 = i+3+3*n+1 := by omega
    obtain ⟨fuel,j,hj⟩ := ih (i+3) (he ▸ h)
    by_cases hlt : micros k (q.tick (i+1)) < target
    · exact ⟨fuel+1,j,by rw [delay_loop k q target ht, if_pos hlt, hj]⟩
    · exact ⟨0,i+3,by rw [delay_loop k q target ht, if_neg hlt]⟩

theorem delay_call (wait : BitVec 32) (fuel i : ℕ) : lnDelayUs k q wait (fuel+1) i =
    delayLoop k q (BitVec.ofNat 64 (micros k (q.tick (i+1)) + wait.toNat)) (fuel+1) (i+3) := by
  have hw : wait.setWidth 64 = BitVec.ofNat 64 wait.toNat :=
    BitVec.eq_of_toNat_eq (by rw [BitVec.toNat_setWidth, BitVec.toNat_ofNat])
  rw [lnDelayUs, us_read]
  simp only [hw, BitVec.ofNat_add]

theorem delay_kept_iff (wait : BitVec 32) (i : ℕ) :
    DelayKept k q wait i ↔ TargetSeen k q wait i := by
  have hu := micros_small k (q.tick (i+1))
  have hw := wait.isLt
  have hseen : ∀ n, targetTick k q wait i ≤ phase k (q.tick (i+3+3*n+1)) ↔
      micros k (q.tick (i+1)) + wait.toNat ≤ micros k (q.tick (i+3+3*n+1)) := by
    intro n
    exact (Nat.le_div_iff_mul_le (micro_pos k)).symm
  constructor
  · rintro ⟨fuel,j,hj,-⟩
    cases fuel with
    | zero => cases hj
    | succ fuel =>
      rw [delay_call] at hj
      obtain ⟨n,-,hn⟩ := delay_loop_seen k q _ (by omega) _ _ _ hj
      exact ⟨n,(hseen n).mpr hn⟩
  · rintro ⟨n,hn⟩
    obtain ⟨fuel,j,hj⟩ := delay_loop_ends k q _ (by omega) n (i+3) ((hseen n).mp hn)
    refine ⟨fuel+1,j,by rw [delay_call, hj],?_⟩
    obtain ⟨l,rfl,hl⟩ := delay_loop_seen k q _ (by omega) _ _ _ hj
    have hlast : i+3+3*l+3-2 = i+3+3*l+1 := by omega
    have hle : q.tick (i+1) ≤ q.tick (i+3+3*l+1) := tick_mono q (by omega)
    have hcount := micros_counted k (q.tick (i+1)) (q.tick (i+3+3*l+1) - q.tick (i+1))
    rw [Nat.add_sub_of_le hle] at hcount
    rw [hlast]
    omega

/-- A target that lies beyond the reload is never seen, whatever the phase and
however often the counter is looked at. -/
theorem late_target_unseen (wait : BitVec 32) (i : ℕ) (h : period k ≤ targetTick k q wait i) :
    ¬ TargetSeen k q wait i := by
  rintro ⟨n,hn⟩
  exact absurd (phase_lt k (q.tick (i+3+3*n+1))) (by omega)

/-- A target that lies before the reload is seen in time if no two looks are further
apart than the rest of the period. -/
theorem paced_target_seen (wait : BitVec 32) (i gap : ℕ) (hgap : Paced q gap) (h : targetTick k q wait i + gap ≤ period k) :
    TargetSeen k q wait i := by
  have hstart := Nat.lt_div_mul_add (a := q.tick (i+1)) (period_pos k)
  have hfirst : q.tick (i+4) ≤ q.tick (i+1) + gap := hgap (i+1)
  -- this period may be over before the first look of the loop, a later one is met in full
  obtain ⟨start,hs⟩ : ∃ start, start = period k*(lap k (q.tick (i+1)) + 2) := ⟨_,rfl⟩
  have hbefore : q.tick (i+4) < start := by
    rw [hs, Nat.mul_comm, Nat.add_mul, lap]
    omega
  have hreached : ∃ n, start + targetTick k q wait i ≤ q.tick (i+3+3*n+1) := by
    have hgrow : ∀ j, j ≤ q.tick j := fun j => (strictMono_nat_of_lt_succ q.later).le_apply
    exact ⟨start + targetTick k q wait i,le_trans (by omega) (hgrow _)⟩
  obtain ⟨n,hn,hmin⟩ : ∃ n, start + targetTick k q wait i ≤ q.tick (i+3+3*n+1) ∧
      q.tick (i+3+3*n+1) < start + period k := by
    refine ⟨Nat.find hreached,Nat.find_spec hreached,?_⟩
    cases hf : Nat.find hreached with
    | zero => exact lt_of_lt_of_le hbefore (Nat.le_add_right _ _)
    | succ n =>
      have hprev := Nat.find_min hreached (m := n) (by rw [hf]; exact Nat.lt_succ_self n)
      have hnext := hgap (i+3+3*n+1)
      have he : i+3+3*(n+1)+1 = i+3+3*n+1+3 := by omega
      rw [he]
      omega
  refine ⟨n,?_⟩
  obtain ⟨r,hr⟩ := Nat.exists_eq_add_of_le (le_trans (Nat.le_add_right _ _) hn)
  rw [hr] at hn hmin ⊢
  rw [phase, hs, Nat.mul_add_mod, Nat.mod_eq_of_lt (by omega)]
  omega

end Functions

end Swindle.SystemTimer
