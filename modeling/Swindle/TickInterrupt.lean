import Swindle.SystemTimer
import Swindle.TickDelay
import Swindle.Views

/-!
# The tick interrupt in time

The timer asks for its interrupt at every match and goes on whether the interrupt is
served at once, late or not before the next match. What the interrupt has counted is
set against the milliseconds that the timer has run through, and the delay that waits
for counted ticks against the time it takes.
-/

set_option autoImplicit false

namespace Swindle.TickInterrupt
open Swindle.WordMemory Swindle.MachineRuns Swindle.Interference Swindle.Views
open Swindle.SystemTimer Swindle.TickDelay

/-- The timer with its status register, and what the program keeps. -/
structure Timed where
  stk : Stk
  sr : Word
  ticks : Ticks

namespace Timed
variable (s : Timed)

def flag : Bool := s.sr.getLsbD 0

/-- The interrupt of the timer is asked for: its flag is up and it is enabled. -/
def pending : Bool := s.flag && s.stk.ctlr &&& systickStie != 0

/-- The next tick of the core clock brings the counter to the compare value. -/
def meets : Bool := s.stk.ctlr &&& systickSten != 0 && s.stk.ctn + 1 == s.stk.cmp

def clock : Timed := { s with stk := s.stk.tick, sr := if s.meets then s.sr ||| 1 else s.sr }

/-- `systick_isr`, where it is asked for. -/
def interrupt : Timed :=
  if s.pending then { s with sr := 0, ticks := systickIsr () s.ticks } else s

theorem clock_flag : s.clock.flag = (s.flag || s.meets) := by
  cases hm : s.meets <;> simp [clock, flag, hm]

theorem interrupt_flag (h : s.pending = s.flag) : s.interrupt.flag = false := by
  cases hf : s.flag with
  | false => rw [interrupt, h, hf, if_neg Bool.false_ne_true, hf]
  | true =>
    rw [interrupt, h, hf, if_pos rfl]
    exact BitVec.getLsbD_zero

end Timed

inductive Event where
  | clock
  | interrupt
  deriving DecidableEq, Repr

def hardware : Event → Timed → Timed
  | .clock => Timed.clock
  | .interrupt => Timed.interrupt

def execTimed (i : Instr) (s : Timed) : Option Timed :=
  (exec i s.ticks).map fun t => { s with ticks := t }

abbrev timedTurn : Turn Event → List Instr × Timed → List Instr × Timed := turn execTimed hardware

def isClock : Turn Event → Bool
  | .event .clock => true
  | _ => false

def elapsed (ts : List (Turn Event)) : ℕ := ts.countP isClock

/-- What the program and the counter notice of a turn: an interrupt that is served. -/
def noticed : Turn Event → List Instr × Timed → List (Turn Unit)
  | .program, _ => [.program]
  | .event .clock, _ => []
  | .event .interrupt, c => if c.2.pending then [.event ()] else []

/-- A match that finds the interrupt of the last one still waiting. -/
def misses : Turn Event → List Instr × Timed → Bool
  | .event .clock, c => c.2.meets && c.2.pending
  | _, _ => false

def missed : List (Turn Event) → List Instr × Timed → ℕ
  | [], _ => 0
  | t::ts, c => (misses t c).toNat + missed ts (timedTurn t c)

/-! ## The machine in time is the machine of ticks -/

theorem noticed_turn (t : Turn Event) (c : List Instr × Timed) :
    Prod.map id Timed.ticks (timedTurn t c) =
      run delayTurn (noticed t c) (Prod.map id Timed.ticks c) := by
  obtain ⟨ks,s⟩ := c
  cases t with
  | program =>
    cases ks with
    | nil => rfl
    | cons k ks => cases hx : exec k s.ticks <;> simp [turn, execTimed, noticed, run, hx]
  | event e =>
    cases e with
    | clock => rfl
    | interrupt =>
      cases hp : s.pending <;> simp [turn, hardware, Timed.interrupt, noticed, run, hp]

/-- The schedule of the machine of ticks that a schedule in time amounts to. -/
abbrev counted (ts : List (Turn Event)) (c : List Instr × Timed) : List (Turn Unit) :=
  seen timedTurn noticed ts c

theorem timed_run (ts : List (Turn Event)) (c : List Instr × Timed) :
    Prod.map id Timed.ticks (run timedTurn ts c) =
      run delayTurn (counted ts c) (Prod.map id Timed.ticks c) :=
  view_seen timedTurn noticed delayTurn _ noticed_turn ts c

/-! ## What becomes of every match -/

section Accounts
variable (k : CoreClock)

/-- The timer is where it is `t` ticks after `init_timer_irq`. -/
def RunningFor (t : ℕ) (s : Timed) : Prop := s.stk = Stk.tick^[t] (initTimerIrq k Stk.off)

def pends (s : Timed) : ℕ := s.pending.toNat

/-- What is found `t` ticks after `init_timer_irq`, with these in the other registers. -/
abbrev begun (t : ℕ) (sr : Word) (n : Ticks) : Timed := ⟨Stk.tick^[t] (initTimerIrq k Stk.off),sr,n⟩

def lastTick (t : ℕ) : Bool := decide (phase k t + 1 = period k)

theorem running_meets (t : ℕ) (s : Timed) (h : RunningFor k t s) : s.meets = lastTick k t := by
  have hp := (period_bounds k).2
  have hlt := phase_lt k t
  have hen : ((running k (phase k t)).ctlr &&& systickSten != 0) = true := by
    show (systickSten ||| systickStie ||| systickStclk ||| systickModeUp ||| systickInit |||
      systickStre) &&& systickSten != 0
    decide
  have hnext : (running k (phase k t)).ctn + 1 = BitVec.ofNat 64 (phase k t + 1) :=
    (BitVec.ofNat_add (phase k t) 1).symm
  rw [Timed.meets, h, timer_after, hen, Bool.true_and, running_cmp, hnext, lastTick,
    ← Bool.coe_iff_coe, beq_iff_eq, decide_eq_true_iff, ← BitVec.toNat_inj,
    value_toNat (by omega), value_toNat (by omega)]

theorem running_pending (t : ℕ) (s : Timed) (h : RunningFor k t s) :
    s.pending = s.flag := by
  have hen : ((running k (phase k t)).ctlr &&& systickStie != 0) = true := by
    show (systickSten ||| systickStie ||| systickStclk ||| systickModeUp ||| systickInit |||
      systickStre) &&& systickStie != 0
    decide
  rw [Timed.pending, h, timer_after, hen, Bool.and_true]

theorem lap_succ (t : ℕ) : lap k (t+1) = lap k t + (lastTick k t).toNat := by
  have hdvd : period k ∣ t+1 ↔ phase k t + 1 = period k := by
    rw [Nat.dvd_iff_mod_eq_zero, ← phase, phase_succ]
    split_ifs with h <;> simp [h]
  rw [lap, Nat.succ_div, lastTick, lap]
  by_cases h : phase k t + 1 = period k <;> simp [hdvd, h]

theorem running_turn (t : ℕ) (u : Turn Event) (c : List Instr × Timed) (h : RunningFor k t c.2) :
    RunningFor k (t + (isClock u).toNat) (timedTurn u c).2 := by
  obtain ⟨ks,s⟩ := c
  cases u with
  | program =>
    cases ks with
    | nil => exact h
    | cons i ks =>
      cases hx : exec i s.ticks <;> simpa [turn, execTimed, hx, isClock, RunningFor] using h
  | event e =>
    cases e with
    | clock =>
      rw [RunningFor, isClock, Bool.toNat_true, Function.iterate_succ_apply', ← h]
      rfl
    | interrupt =>
      cases hp : s.pending <;>
        simpa [turn, hardware, Timed.interrupt, hp, isClock, RunningFor] using h

/-- A match is noticed by the interrupt, is waiting for it, or is missed. -/
theorem accounts_turn (t : ℕ) (u : Turn Event) (c : List Instr × Timed) (h : RunningFor k t c.2) :
    ticks (noticed u c) + pends (timedTurn u c).2 + (misses u c).toNat + lap k t =
      pends c.2 + lap k (t + (isClock u).toNat) := by
  have hnext := running_turn k t u c h
  rw [pends, pends, running_pending k _ _ hnext, running_pending k t c.2 h]
  obtain ⟨ks,s⟩ := c
  cases u with
  | program =>
    cases ks with
    | nil => simp [turn, noticed, ticks, isTick, misses, isClock]
    | cons i ks =>
      cases hx : exec i s.ticks <;>
        simp [turn, execTimed, hx, noticed, ticks, isTick, misses, isClock, Timed.flag]
  | event e =>
    have hpending := running_pending k t s h
    cases e with
    | clock =>
      have hturn : (timedTurn (.event .clock) (ks,s)).2 = s.clock := rfl
      rw [hturn, Timed.clock_flag, running_meets k t s h, misses, running_meets k t s h, hpending,
        isClock, Bool.toNat_true, lap_succ]
      cases lastTick k t <;> cases s.flag <;> simp [noticed, ticks] <;> omega
    | interrupt =>
      have hturn : (timedTurn (.event .interrupt) (ks,s)).2 = s.interrupt := rfl
      rw [hturn, Timed.interrupt_flag s hpending]
      cases hflag : s.flag <;> simp [noticed, hpending, hflag, ticks, isTick, misses, isClock]

theorem elapsed_cons (u : Turn Event) (ts : List (Turn Event)) :
    elapsed (u::ts) = (isClock u).toNat + elapsed ts := by
  rw [elapsed, List.countP_cons, Nat.add_comm]
  cases isClock u <;> rfl

theorem accounts_run (t : ℕ) (ts : List (Turn Event)) (c : List Instr × Timed)
    (h : RunningFor k t c.2) :
    ticks (counted ts c) + pends (run timedTurn ts c).2 + missed ts c + lap k t =
      pends c.2 + lap k (t + elapsed ts) := by
  induction ts generalizing t c with
  | nil => simp [counted, seen, ticks, run, missed, elapsed]
  | cons u ts ih =>
    have hfirst := accounts_turn k t u c h
    have hrest := ih _ _ (running_turn k t u c h)
    have hticks : ticks (counted (u::ts) c) =
        ticks (noticed u c) + ticks (counted ts (timedTurn u c)) := List.countP_append
    rw [hticks, run, missed, elapsed_cons, ← Nat.add_assoc t]
    omega

/-- What the counter of the program makes of it. -/
theorem tick_count (t : ℕ) (ts : List (Turn Event)) (c : List Instr × Timed)
    (h : RunningFor k t c.2) :
    (run timedTurn ts c).2.ticks.sysTickCount +
        BitVec.ofNat 32 (pends (run timedTurn ts c).2 + missed ts c + lap k t) =
      c.2.ticks.sysTickCount + BitVec.ofNat 32 (pends c.2 + lap k (t + elapsed ts)) := by
  have hcount : (run timedTurn ts c).2.ticks.sysTickCount =
      c.2.ticks.sysTickCount + BitVec.ofNat 32 (ticks (counted ts c)) := by
    have hrun := congrArg (fun d => d.2.sysTickCount) (timed_run ts c)
    rw [count_run] at hrun
    exact hrun
  rw [hcount, BitVec.add_assoc, ← BitVec.ofNat_add, ← accounts_run k t ts c h, ← Nat.add_assoc,
    ← Nat.add_assoc]

end Accounts

/-! ## The milliseconds of the program -/

section Program
variable (k : CoreClock)

theorem missed_append (us vs : List (Turn Event)) (c : List Instr × Timed) :
    missed (us++vs) c = missed us c + missed vs (run timedTurn us c) := by
  induction us generalizing c with
  | nil => rw [List.nil_append, missed, Nat.zero_add]; rfl
  | cons u us ih => rw [List.cons_append, missed, ih, missed, run, Nat.add_assoc]

/-- At every moment of a run from `init_timer_irq` on the program has counted the milliseconds gone
by, but for one whose interrupt is still waiting, exactly if no match finds the interrupt of
the one before still waiting. Every match that does leaves the count one short for good. -/
theorem milliseconds_kept_iff (ks : List Instr) (sr : Word) (n : Ticks) (ts : List (Turn Event)) :
    ((∀ us, us <+: ts →
      let s := (run timedTurn us (ks,begun k 0 sr n)).2
      s.ticks.sysTickCount + BitVec.ofNat 32 (pends s) =
        n.sysTickCount + BitVec.ofNat 32 (pends (begun k 0 sr n) + lap k (elapsed us))) ↔
      missed ts (ks,begun k 0 sr n) = 0) ∧
    ∀ us, us <+: ts →
      let s := (run timedTurn us (ks,begun k 0 sr n)).2
      s.ticks.sysTickCount + BitVec.ofNat 32 (pends s + missed us (ks,begun k 0 sr n)) =
        n.sysTickCount + BitVec.ofNat 32 (pends (begun k 0 sr n) + lap k (elapsed us)) := by
  have hrun : RunningFor k 0 (begun k 0 sr n) := rfl
  have hlap : lap k 0 = 0 := Nat.zero_div _
  refine ⟨?_,fun us _ => ?_⟩
  swap
  · have hcount := tick_count k 0 us (ks,begun k 0 sr n) hrun
    rwa [hlap, Nat.add_zero, Nat.zero_add] at hcount
  constructor
  · intro hkept
    -- the first match that is missed would leave the count one short
    induction ts using List.reverseRecOn with
    | nil => rfl
    | append_singleton ts u ih =>
      have hbefore := ih fun us hus => hkept us (hus.trans (List.prefix_append ts [u]))
      have hcount := tick_count k 0 (ts++[u]) (ks,begun k 0 sr n) hrun
      have hlast : missed (ts++[u]) (ks,begun k 0 sr n) ≤ 1 := by
        rw [missed_append, hbefore, Nat.zero_add, missed, missed, Nat.add_zero]
        exact Bool.toNat_le _
      rw [Nat.zero_add, ← hkept _ List.prefix_rfl, hlap, Nat.add_zero] at hcount
      have hsame := congrArg BitVec.toNat ((BitVec.add_right_inj _).mp hcount)
      have hpend : pends (run timedTurn (ts++[u]) (ks,begun k 0 sr n)).2 ≤ 1 :=
        Bool.toNat_le _
      rw [BitVec.toNat_ofNat, BitVec.toNat_ofNat] at hsame
      omega
  · intro hnone us hus
    obtain ⟨vs,rfl⟩ := hus
    rw [missed_append] at hnone
    have hcount := tick_count k 0 us (ks,begun k 0 sr n) hrun
    rw [show missed us (ks,begun k 0 sr n) = 0 by omega, hlap, Nat.zero_add] at hcount
    exact hcount

/-! ## How long the delay takes -/

def prompt : ℕ → List Event
  | 0 => [.interrupt]
  | m+1 => prompt m ++ [.clock,.interrupt]

theorem interrupt_ticks (s : Timed) : s.interrupt.ticks =
    { s.ticks with sysTickCount := s.ticks.sysTickCount + BitVec.ofNat 32 (pends s) } := by
  cases hp : s.pending <;> simp [Timed.interrupt, pends, hp, systickIsr]

theorem interrupt_running (t : ℕ) (s : Timed) (h : RunningFor k t s) :
    RunningFor k t s.interrupt := running_turn k t (.event .interrupt) ([],s) h

theorem clock_running (t : ℕ) (s : Timed) (h : RunningFor k t s) :
    RunningFor k (t+1) s.clock := running_turn k t (.event .clock) ([],s) h

/-- After prompt service no interrupt waits and every match is counted. -/
theorem prompt_run (t m : ℕ) (s : Timed) (h : RunningFor k t s) :
    RunningFor k (t+m) (run hardware (prompt m) s) ∧ (run hardware (prompt m) s).flag = false ∧
      (run hardware (prompt m) s).ticks = { s.ticks with
        sysTickCount := s.ticks.sysTickCount +
          BitVec.ofNat 32 (pends s + (lap k (t+m) - lap k t)) } := by
  induction m with
  | zero =>
    rw [Nat.add_zero, Nat.sub_self, Nat.add_zero]
    exact ⟨interrupt_running k t s h,Timed.interrupt_flag s (running_pending k t s h),
      interrupt_ticks s⟩
  | succ m ih =>
    obtain ⟨hrun,hflag,hticks⟩ := ih
    rw [prompt, run_append]
    generalize run hardware (prompt m) s = u at hrun hflag hticks
    have hclock := clock_running k (t+m) u hrun
    have hpending := running_pending k _ _ hclock
    have hpends : pends u.clock = (lastTick k (t+m)).toNat := by
      rw [pends, hpending, Timed.clock_flag, hflag, Bool.false_or, running_meets k _ u hrun]
    have hmono : lap k t ≤ lap k (t+m) := Nat.div_le_div_right (Nat.le_add_right t m)
    have hlap : lap k (t + (m+1)) = lap k (t+m) + (lastTick k (t+m)).toNat := lap_succ k (t+m)
    have hsum : pends s + (lap k (t + (m+1)) - lap k t) =
        pends s + (lap k (t+m) - lap k t) + pends u.clock := by omega
    have hstep : run hardware [.clock,.interrupt] u = u.clock.interrupt := rfl
    have huticks : u.clock.ticks = u.ticks := rfl
    rw [hstep, interrupt_ticks, huticks, hticks, hsum, BitVec.ofNat_add _ (pends u.clock),
      ← BitVec.add_assoc]
    exact ⟨interrupt_running k _ _ hclock,Timed.interrupt_flag _ hpending,rfl⟩

def computed (wait : Word) (s : Timed) : Timed :=
  { s with ticks := { s.ticks with next := s.ticks.sysTickCount + wait } }

/-- The program computes its tick, the events come, and it finds the tick reached. -/
theorem delay_run (wait : Word) (s : Timed) (es fs : List Event)
    (hdone : ¬ (run hardware es (computed wait s)).ticks.sysTickCount <
      (run hardware es (computed wait s)).ticks.next) :
    (run timedTurn (.program :: es.map .event ++ .program :: fs.map .event)
      (lnDelay wait,s)).1 = [] := by
  have hwaits : run timedTurn (.program :: es.map .event) (lnDelay wait,s) =
      ([Instr.loop],run hardware es (computed wait s)) :=
    run_happenings es [Instr.loop] (computed wait s)
  have hlast : timedTurn .program ([Instr.loop],run hardware es (computed wait s)) =
      ([],run hardware es (computed wait s)) := by
    simp [turn, execTimed, exec, hdone]
  rw [run_append, hwaits, run, hlast, run_happenings]

theorem elapsed_append (us vs : List (Turn Event)) : elapsed (us++vs) = elapsed us + elapsed vs :=
  List.countP_append

theorem elapsed_clocks (n : ℕ) : elapsed ((List.replicate n Event.clock).map .event) = n := by
  induction n with
  | zero => rfl
  | succ n ih =>
    rw [List.replicate_succ, List.map_cons, elapsed_cons, ih, Nat.add_comm]
    rfl

/-- The program takes no time of its own. -/
theorem elapsed_delay (es fs : List Event) :
    elapsed (.program :: es.map .event ++ .program :: fs.map .event) =
      elapsed (es.map .event) + elapsed (fs.map .event) := by
  have hprogram : (isClock .program).toNat = 0 := rfl
  rw [elapsed_append, elapsed_cons, elapsed_cons, hprogram, Nat.zero_add, Nat.zero_add]

theorem elapsed_prompt (m : ℕ) : elapsed ((prompt m).map .event) = m := by
  induction m with
  | zero => rfl
  | succ m ih =>
    rw [prompt, List.map_append, elapsed_append, ih]
    rfl

/-- The reload with which the delay can end at the earliest. -/
theorem delay_earliest (t n : ℕ) (wait : ℕ) (s : Timed) (hpos : 0 < wait)
    (hn : wait * period k ≤ phase k t + n + pends s * period k) :
    ∃ m, m ≤ n ∧ pends s + (lap k (t+m) - lap k t) = wait := by
  have hpends : pends s ≤ 1 := Bool.toNat_le _
  have hphase := phase_lt k t
  obtain ⟨r,hr⟩ := Nat.exists_eq_add_of_le (show pends s ≤ wait by omega)
  rw [hr, Nat.add_mul] at hn
  cases r with
  | zero => exact ⟨0,Nat.zero_le n,by rw [hr, Nat.add_zero t, Nat.sub_self]⟩
  | succ r =>
    have hone : period k ≤ (r+1) * period k := Nat.le_mul_of_pos_left _ (Nat.succ_pos r)
    have hend : t + ((r+1) * period k - phase k t) = (lap k t + (r+1)) * period k := by
      have hstart := Nat.div_add_mod' t (period k)
      rw [phase] at hphase
      rw [Nat.add_mul (lap k t), lap, phase]
      omega
    have hlap : lap k (t + ((r+1) * period k - phase k t)) = lap k t + (r+1) := by
      rw [hend, lap, Nat.mul_div_left _ (period_pos k)]
    exact ⟨(r+1) * period k - phase k t,by omega,by rw [hlap, hr, Nat.add_sub_cancel_left]⟩

/-- No delay ends before the timer has gone through its milliseconds. -/
theorem delay_bound (t : ℕ) (wait : Word) (s : Timed) (h : RunningFor k t s)
    (hleft : s.ticks.sysTickCount.toNat + 2*wait.toNat ≤ 2^32) (ts : List (Turn Event))
    (hend : (run timedTurn ts (lnDelay wait,s)).1 = []) :
    wait.toNat * period k ≤ phase k t + elapsed ts + pends s * period k := by
  have hcoarse := congrArg Prod.fst (timed_run ts (lnDelay wait,s))
  have hlong := delay_lasts wait s.ticks hleft (counted ts (lnDelay wait,s))
    (hcoarse.symm.trans hend)
  have haccounts : _ = pends s + lap k (t + elapsed ts) := accounts_run k t ts (lnDelay wait,s) h
  have hmono : lap k t ≤ lap k (t + elapsed ts) := Nat.div_le_div_right (Nat.le_add_right t _)
  have hlaps : wait.toNat ≤ pends s + (lap k (t + elapsed ts) - lap k t) := by omega
  have hscaled := Nat.mul_le_mul_right (period k) hlaps
  rw [Nat.add_mul, Nat.sub_mul] at hscaled
  have hstart : lap k t * period k + phase k t = t := Nat.div_add_mod' t (period k)
  have hstop : lap k (t + elapsed ts) * period k ≤ t + elapsed ts := Nat.div_mul_le_self _ _
  omega

/-- With prompt service the delay ends when the timer has gone through them. -/
theorem delay_reached (t n : ℕ) (wait : Word) (s : Timed) (h : RunningFor k t s)
    (hn : wait.toNat * period k ≤ phase k t + n + pends s * period k) :
    ∃ ts, elapsed ts = n ∧ (run timedTurn ts (lnDelay wait,s)).1 = [] := by
  rcases Nat.eq_zero_or_pos wait.toNat with hzero | hpos
  · have hwait : wait = 0 := BitVec.eq_of_toNat_eq hzero
    have hdone : ¬ (run hardware [] (computed wait s)).ticks.sysTickCount <
        (run hardware [] (computed wait s)).ticks.next := by
      rw [hwait]
      show ¬ s.ticks.sysTickCount < s.ticks.sysTickCount + 0#32
      rw [BitVec.add_zero]
      exact BitVec.lt_irrefl _
    exact ⟨_,(elapsed_delay [] _).trans ((Nat.zero_add _).trans (elapsed_clocks n)),
      delay_run wait s [] (List.replicate n .clock) hdone⟩
  · obtain ⟨m,hm,hlaps⟩ := delay_earliest k t n wait.toNat s hpos hn
    have hcount := (prompt_run k t m (computed wait s) h).2.2
    have hpends : pends (computed wait s) = pends s := rfl
    rw [hpends, hlaps, BitVec.ofNat_toNat, BitVec.setWidth_eq] at hcount
    have hdone : ¬ (run hardware (prompt m) (computed wait s)).ticks.sysTickCount <
        (run hardware (prompt m) (computed wait s)).ticks.next := by
      rw [hcount]
      exact BitVec.lt_irrefl _
    have helapsed : elapsed ((prompt m).map .event) +
        elapsed ((List.replicate (n-m) Event.clock).map .event) = n := by
      rw [elapsed_prompt, elapsed_clocks, Nat.add_sub_cancel' hm]
    exact ⟨_,(elapsed_delay _ _).trans helapsed,
      delay_run wait s (prompt m) (List.replicate (n-m) .clock) hdone⟩

/-- The delay can have ended `n` ticks of the core clock after its start exactly if the timer has
gone through as many milliseconds as it was asked for, counted from the last reload before the start
and with one less if an interrupt was waiting then. -/
theorem delay_time_iff (wait : Word) (t n : ℕ) (sr : Word) (m : Ticks)
    (hleft : m.sysTickCount.toNat + 2*wait.toNat ≤ 2^32) :
    (∃ ts, elapsed ts = n ∧ (run timedTurn ts (lnDelay wait,begun k t sr m)).1 = []) ↔
      wait.toNat * period k ≤ phase k t + n + pends (begun k t sr m) * period k := by
  constructor
  · intro hended
    obtain ⟨ts,hn,hend⟩ := hended
    rw [← hn]
    exact delay_bound k t wait (begun k t sr m) rfl hleft ts hend
  · intro hn
    exact delay_reached k t n wait (begun k t sr m) rfl hn

/-- The thirty milliseconds for which `usb_init` holds the controller in reset. -/
theorem usb_reset_held :
    (∃ ts, elapsed ts = 4320000 ∧
      (run timedTurn ts (lnDelay 30,begun systemCoreClock 0 0 ⟨0,0⟩)).1 = []) ∧
    ¬ ∃ ts, elapsed ts = 4319999 ∧
      (run timedTurn ts (lnDelay 30,begun systemCoreClock 0 0 ⟨0,0⟩)).1 = [] := by
  constructor
  · exact (delay_time_iff systemCoreClock 30 0 4320000 0 ⟨0,0⟩ (by decide)).mpr (by decide)
  · intro h
    have hlong := (delay_time_iff systemCoreClock 30 0 4319999 0 ⟨0,0⟩ (by decide)).mp h
    exact absurd hlong (by decide)

end Program

end Swindle.TickInterrupt
