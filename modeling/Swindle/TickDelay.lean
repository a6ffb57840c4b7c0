import Swindle.WordMemory
import Swindle.Interference

/-!
# Waiting for ticks

`lnDelay` waits for a counter that the interrupt of the system timer counts up, and
that interrupt may come between any two of its reads. The tick it waits for is computed
without regard to the end of the counter.
-/

set_option autoImplicit false

namespace Swindle.TickDelay
open Swindle.WordMemory Swindle.MachineRuns Swindle.Interference

/-- `sys_tick_count`, and the local variable of `lnDelay`. -/
structure Ticks where
  sysTickCount : Word
  next : Word
  deriving DecidableEq, Repr

inductive Instr where
  | compute (wait : Word)
  | loop
  deriving DecidableEq, Repr

/-- The loop goes on as long as the counter is below the tick it waits for. -/
def exec : Instr → Ticks → Option Ticks
  | .compute wait, s => some { s with next := s.sysTickCount + wait }
  | .loop, s => if s.sysTickCount < s.next then none else some s

def lnDelay (wait : Word) : List Instr := [.compute wait,.loop]

/-- `systick_isr` -/
def systickIsr (_ : Unit) (s : Ticks) : Ticks := { s with sysTickCount := s.sysTickCount + 1 }

abbrev delayTurn : Turn Unit → List Instr × Ticks → List Instr × Ticks := turn exec systickIsr

def isTick : Turn Unit → Bool
  | .program => false
  | .event _ => true

def ticks (ts : List (Turn Unit)) : ℕ := ts.countP isTick

/-- How far the delay is after `n` ticks, if the counter began at `c`. -/
inductive Stage (c : ℕ) (wait : Word) (n : ℕ) : List Instr × Ticks → Prop where
  | before (s : Ticks) (hc : s.sysTickCount = BitVec.ofNat 32 (c + n)) :
      Stage c wait n (lnDelay wait,s)
  | waiting (s : Ticks) (k : ℕ) (hk : k ≤ n) (hc : s.sysTickCount = BitVec.ofNat 32 (c + n))
      (hnext : s.next = BitVec.ofNat 32 (c + k) + wait) : Stage c wait n ([.loop],s)
  | ended (s : Ticks) (k m : ℕ) (hk : k ≤ m) (hm : m ≤ n)
      (hdone : ¬ BitVec.ofNat 32 (c + m) < BitVec.ofNat 32 (c + k) + wait) : Stage c wait n ([],s)

theorem stage_turn (c : ℕ) (wait : Word) (n : ℕ) (t : Turn Unit) (d : List Instr × Ticks)
    (h : Stage c wait n d) : Stage c wait (n + if isTick t then 1 else 0) (delayTurn t d) := by
  have hstep : ∀ s : Ticks, s.sysTickCount = BitVec.ofNat 32 (c + n) →
      (systickIsr () s).sysTickCount = BitVec.ofNat 32 (c + (n + 1)) := by
    intro s hs
    rw [systickIsr, hs, ← Nat.add_assoc, BitVec.ofNat_add _ 1]
    rfl
  cases t with
  | event e =>
    cases h with
    | before s hc => exact .before _ (hstep s hc)
    | waiting s k hk hc hnext => exact .waiting _ k (hk.trans (Nat.le_succ n)) (hstep s hc) hnext
    | ended s k m hk hm hdone => exact .ended _ k m hk (hm.trans (Nat.le_succ n)) hdone
  | program =>
    cases h with
    | before s hc => exact .waiting _ n le_rfl hc (by rw [← hc])
    | waiting s k hk hc hnext =>
      by_cases hlt : s.sysTickCount < s.next
      · simp only [delayTurn, turn, exec, if_pos hlt]
        exact .waiting s k hk hc hnext
      · simp only [delayTurn, turn, exec, if_neg hlt]
        exact .ended s k n hk le_rfl (by rwa [← hc, ← hnext])
    | ended s k m hk hm hdone => exact .ended s k m hk hm hdone

theorem stage_run (c : ℕ) (wait : Word) (ts : List (Turn Unit)) (n : ℕ) (d : List Instr × Ticks)
    (h : Stage c wait n d) : Stage c wait (n + ticks ts) (run delayTurn ts d) := by
  induction ts generalizing n d with
  | nil => exact h
  | cons t ts ih =>
    have hnext := ih _ _ (stage_turn c wait n t d h)
    rw [Nat.add_assoc, Nat.add_comm (if isTick t then 1 else 0)] at hnext
    rw [ticks, List.countP_cons]
    exact hnext

theorem count_turn (u : Turn Unit) (d : List Instr × Ticks) : (delayTurn u d).2.sysTickCount =
    d.2.sysTickCount + BitVec.ofNat 32 (if isTick u then 1 else 0) := by
  obtain ⟨ks,s⟩ := d
  cases u with
  | event e => rfl
  | program =>
    cases ks with
    | nil => simp [turn, isTick]
    | cons i ks =>
      cases i with
      | compute wait => simp [turn, exec, isTick]
      | loop => by_cases h : s.sysTickCount < s.next <;> simp [turn, exec, h, isTick]

/-- The counter counts the ticks of a schedule, from wherever it stands. -/
theorem count_run (ts : List (Turn Unit)) (d : List Instr × Ticks) :
    (run delayTurn ts d).2.sysTickCount = d.2.sysTickCount + BitVec.ofNat 32 (ticks ts) := by
  induction ts generalizing d with
  | nil => simp [run, ticks]
  | cons u ts ih =>
    rw [run, ih, count_turn, ticks, ticks, List.countP_cons, Nat.add_comm, BitVec.ofNat_add,
      BitVec.add_assoc]

def early (k : ℕ) : List (Turn Unit) := List.replicate k (.event ()) ++ [.program,.program]

theorem early_ticks (k : ℕ) : ticks (early k) = k := by
  induction k with
  | zero => rfl
  | succ k ih =>
    rw [ticks, early, List.replicate_succ, List.cons_append, List.countP_cons]
    rw [ticks, early] at ih
    rw [ih]
    rfl

theorem isr_run (k : ℕ) (s : Ticks) : run systickIsr (List.replicate k ()) s =
    { s with sysTickCount := s.sysTickCount + BitVec.ofNat 32 k } := by
  induction k generalizing s with
  | zero => simp [run]
  | succ k ih =>
    rw [List.replicate_succ, run, ih, systickIsr, BitVec.add_assoc, Nat.add_comm, BitVec.ofNat_add]
    rfl

/-- Ended before its time: some `k` below `wait` at which the tick waited for lies behind the end
of the counter. -/
theorem early_ends (wait : Word) (s : Ticks) (k : ℕ)
    (h : ¬ s.sysTickCount + BitVec.ofNat 32 k < s.sysTickCount + BitVec.ofNat 32 k + wait) :
    (run delayTurn (early k) (lnDelay wait,s)).1 = [] := by
  have hticks : List.replicate k (Turn.event ()) = (List.replicate k ()).map .event := by
    rw [List.map_replicate]
  rw [early, run_append, hticks, delayTurn, run_happenings, isr_run]
  simp only [run, turn, lnDelay, exec, if_neg h]

theorem tick_toNat (s : Ticks) (k : ℕ) : (s.sysTickCount + BitVec.ofNat 32 k).toNat =
    (s.sysTickCount.toNat + k) % 2^32 := by
  rw [BitVec.toNat_add, BitVec.toNat_ofNat, Nat.add_mod_mod]

/-- Far enough from the end of the counter the delay lasts for the ticks it is asked for. -/
theorem delay_lasts (wait : Word) (s : Ticks) (hleft : s.sysTickCount.toNat + 2*wait.toNat ≤ 2^32)
    (ts : List (Turn Unit)) (hend : (run delayTurn ts (lnDelay wait,s)).1 = []) :
    wait.toNat ≤ ticks ts := by
  have hwait := wait.isLt
  have hstage := stage_run s.sysTickCount.toNat wait ts 0 (lnDelay wait,s) (.before s (by simp))
  rw [Nat.zero_add] at hstage
  generalize run delayTurn ts (lnDelay wait,s) = d at hend hstage
  cases hstage with
  | before s hc => cases hend
  | waiting s k hk hc hnext => cases hend
  | ended s' k m hk hm hdone =>
    by_contra hlt
    apply hdone
    rw [BitVec.lt_def, BitVec.toNat_add, BitVec.toNat_ofNat, BitVec.toNat_ofNat]
    omega

/-- Whenever the interrupts come: the delay lasts for the ticks it is asked for exactly if
twice as many are left of the counter. -/
theorem delay_lasts_iff (wait : Word) (s : Ticks) :
    (∀ ts, (run delayTurn ts (lnDelay wait,s)).1 = [] → wait.toNat ≤ ticks ts) ↔
      wait = 0 ∨ s.sysTickCount.toNat + 2*wait.toNat ≤ 2^32 := by
  have hwait := wait.isLt
  have hcount := s.sysTickCount.isLt
  constructor
  · intro h
    by_contra hne
    rw [not_or, not_le] at hne
    obtain ⟨hzero,hleft⟩ := hne
    have hpos : 0 < wait.toNat := by
      rcases Nat.eq_zero_or_pos wait.toNat with h0 | h0
      · exact absurd (BitVec.eq_of_toNat_eq (by simpa using h0)) hzero
      · exact h0
    -- the first tick at which the sum passes the end of the counter
    have hk := h (early (2^32 - wait.toNat - s.sysTickCount.toNat)) (early_ends wait s _ (by
      rw [BitVec.lt_def, BitVec.toNat_add _ wait, tick_toNat]
      omega))
    rw [early_ticks] at hk
    omega
  · intro h ts hend
    rcases h with rfl | hleft
    · exact Nat.zero_le _
    · exact delay_lasts wait s hleft ts hend

end Swindle.TickDelay
