import Swindle.WordMemory
import Swindle.Views

/-!
# Interrupts

The interrupt controller has a bit for each interrupt that enables it, and a byte with
its priority, four to a word. A priority is stored without regard to its size: what
does not fit into the upper half of its byte is added to the priorities of the
interrupts behind it in the word.
-/

set_option autoImplicit false

namespace Swindle.Interrupts
open Swindle.WordMemory Swindle.MachineRuns Swindle.Views

/-- The interrupts that have a bit in the four words of `IENR`. -/
abbrev LnIRQ := Fin 128

/-- What is enabled, and the registers of the priorities. -/
structure Pfic where
  enabled : ℕ → Word
  iprioir : ℕ → Word

def update (f : ℕ → Word) (r : ℕ) (v : Word) : ℕ → Word := fun i => if i = r then v else f i

/-- Writing a word of `IENR` enables the interrupts whose bits are set. -/
def Pfic.ienr (s : Pfic) (r : ℕ) (v : Word) : Pfic :=
  { s with enabled := update s.enabled r (s.enabled r ||| v) }

/-- Writing a word of `IRER` disables them. -/
def Pfic.irer (s : Pfic) (r : ℕ) (v : Word) : Pfic :=
  { s with enabled := update s.enabled r (s.enabled r &&& ~~~v) }

def lnEnableInterrupt (irq : LnIRQ) (s : Pfic) : Pfic :=
  s.ienr (irq.val >>> 5) ((1 : Word) <<< (irq.val % 32))

def lnDisableInterrupt (irq : LnIRQ) (s : Pfic) : Pfic :=
  s.irer (irq.val >>> 5) ((1 : Word) <<< (irq.val % 32))

def lnIrqSetPriority (irq : LnIRQ) (prio : Word) (p : Pfic) : Pfic :=
  let s := irq.val % 4 * 8
  let r := irq.val >>> 2
  let b := p.iprioir r
  let b := b &&& ~~~((0xff : Word) <<< s)
  let b := b ||| (prio <<< 4) <<< s
  { p with iprioir := update p.iprioir r b }

/-- Stage two gives every interrupt the same priority. -/
def defaultPriorities (p : Pfic) : Pfic :=
  { p with iprioir := fun i => if i < 64 then ((5 : Word) <<< 4) * 0x01010101 else p.iprioir i }

inductive Call where
  | enable (irq : LnIRQ)
  | disable (irq : LnIRQ)
  | setPriority (irq : LnIRQ) (prio : Word)
  | defaults
  deriving DecidableEq, Repr

def call : Call → Pfic → Pfic
  | .enable irq, s => lnEnableInterrupt irq s
  | .disable irq, s => lnDisableInterrupt irq s
  | .setPriority irq prio, s => lnIrqSetPriority irq prio s
  | .defaults, s => defaultPriorities s

/-! ## An interrupt by itself -/

structure IrqState where
  enabled : Bool
  priority : BitVec 8
  deriving DecidableEq, Repr

def behind (irq q : LnIRQ) : Bool := q.val / 4 = irq.val / 4 ∧ q.val % 4 < irq.val % 4

def concerns (irq : LnIRQ) : Call → Bool
  | .enable q => q = irq
  | .disable q => q = irq
  | .setPriority q prio => q = irq || (behind irq q && decide (16 ≤ prio.toNat))
  | .defaults => true

def irqCall (irq : LnIRQ) : Call → IrqState → IrqState
  | .enable _, s => { s with enabled := true }
  | .disable _, s => { s with enabled := false }
  | .setPriority q prio, s =>
    if q = irq then { s with priority := (prio <<< 4).setWidth 8 }
    else { s with priority := s.priority ||| (prio <<< 4).extractLsb' ((irq.val % 4 - q.val % 4)*8) 8 }
  | .defaults, s => { s with priority := 0x50 }

def Pfic.irq (irq : LnIRQ) (s : Pfic) : IrqState :=
  ⟨(s.enabled (irq.val >>> 5)).getLsbD (irq.val % 32),
    (s.iprioir (irq.val >>> 2)).extractLsb' (irq.val % 4 * 8) 8⟩

theorem enable_bit (f : ℕ → Word) (p q : LnIRQ) (g : Word → Word)
    (hg : ∀ w i, (g w).getLsbD i = if i = q.val % 32 then (g w).getLsbD i else w.getLsbD i) :
    (update f (q.val >>> 5) (g (f (q.val >>> 5))) (p.val >>> 5)).getLsbD (p.val % 32) =
      if q = p then (g (f (p.val >>> 5))).getLsbD (p.val % 32)
      else (f (p.val >>> 5)).getLsbD (p.val % 32) := by
  simp only [update, Nat.shiftRight_eq_div_pow]
  by_cases hsame : q = p
  · subst hsame
    simp
  · rw [if_neg hsame]
    split
    · next hword =>
      rw [hg, if_neg, hword]
      intro hbit
      exact hsame (Fin.ext (by omega))
    · rfl

/-- The byte of one interrupt in a word in which the priority of another has been stored. -/
theorem priority_byte (x prio : Word) (lp lq : ℕ) (hp : lp < 4) :
    (insert x 8 (lq*8) (prio <<< 4)).extractLsb' (lp*8) 8 =
      if lq = lp then (prio <<< 4).setWidth 8
      else if lq < lp then x.extractLsb' (lp*8) 8 ||| (prio <<< 4).extractLsb' ((lp - lq)*8) 8
      else x.extractLsb' (lp*8) 8 := by
  apply BitVec.eq_of_getLsbD_eq
  intro i hi
  rw [BitVec.getLsbD_extractLsb', insert_bits]
  by_cases hsame : lq = lp
  · subst hsame
    rw [if_pos rfl, BitVec.getLsbD_setWidth, Nat.add_sub_cancel_left]
    simp [hi, show lq*8 + i < 32 by omega]
  · rw [if_neg hsame]
    by_cases hlt : lq < lp
    · have hsub : lp*8 + i - lq*8 = (lp - lq)*8 + i := by omega
      rw [if_pos hlt, BitVec.getLsbD_or, BitVec.getLsbD_extractLsb', BitVec.getLsbD_extractLsb', hsub]
      simp [hi, show lp*8 + i < 32 by omega, show lq*8 ≤ lp*8 + i by omega,
        show ¬ lp*8 + i < lq*8 + 8 by omega]
    · rw [if_neg hlt, BitVec.getLsbD_extractLsb']
      simp [hi, show ¬ lq*8 ≤ lp*8 + i by omega]

/-- A priority below sixteen stays in its byte. -/
theorem no_spill (prio : Word) (h : prio.toNat < 16) (k : ℕ) (hk : 0 < k) :
    (prio <<< 4).extractLsb' (k*8) 8 = 0 := by
  apply BitVec.eq_of_getLsbD_eq
  intro i hi
  have hpow : 2^4 ≤ 2^(k*8 + i - 4) := Nat.pow_le_pow_right (by decide) (by omega)
  have hhigh : prio.getLsbD (k*8 + i - 4) = false :=
    Nat.testBit_lt_two_pow (lt_of_lt_of_le h hpow)
  rw [BitVec.getLsbD_extractLsb', BitVec.getLsbD_shiftLeft, hhigh]
  simp

theorem single_bit (q : LnIRQ) (i : ℕ) :
    ((1 : Word) <<< (q.val % 32)).getLsbD i = decide (i = q.val % 32) := by
  have hlt : q.val % 32 < 32 := Nat.mod_lt _ (by decide)
  rw [show (1 : Word) <<< (q.val % 32) = BitVec.twoPow 32 (q.val % 32) from rfl, BitVec.getLsbD_twoPow]
  by_cases hi : q.val % 32 = i
  · simp [hi]
    omega
  · simp [hi, Ne.symm hi]

theorem call_enable (irq q : LnIRQ) (s : Pfic) : (lnEnableInterrupt q s).irq irq =
    if q = irq then irqCall irq (.enable q) (s.irq irq) else s.irq irq := by
  have hbit := enable_bit s.enabled irq q (fun w => w ||| (1 : Word) <<< (q.val % 32)) (by
    intro w i
    rw [BitVec.getLsbD_or, single_bit]
    by_cases hi : i = q.val % 32 <;> simp [hi])
  simp only [Pfic.irq, lnEnableInterrupt, Pfic.ienr, hbit, irqCall]
  by_cases hsame : q = irq
  · subst hsame
    rw [if_pos rfl, if_pos rfl, BitVec.getLsbD_or, single_bit, decide_eq_true rfl, Bool.or_true]
  · rw [if_neg hsame, if_neg hsame]

theorem call_disable (irq q : LnIRQ) (s : Pfic) : (lnDisableInterrupt q s).irq irq =
    if q = irq then irqCall irq (.disable q) (s.irq irq) else s.irq irq := by
  have hbit := enable_bit s.enabled irq q (fun w => w &&& ~~~((1 : Word) <<< (q.val % 32))) (by
    intro w i
    have hw := @BitVec.getLsbD_of_ge 32 w i
    rw [BitVec.getLsbD_and, BitVec.getLsbD_not, single_bit]
    by_cases hi : i = q.val % 32
    · rw [if_pos hi]
    · rw [if_neg hi, decide_eq_false hi]
      by_cases hlt : i < 32
      · simp [hlt]
      · simp [hw (by omega)])
  simp only [Pfic.irq, lnDisableInterrupt, Pfic.irer, hbit, irqCall]
  by_cases hsame : q = irq
  · subst hsame
    rw [if_pos rfl, if_pos rfl, BitVec.getLsbD_and, BitVec.getLsbD_not, single_bit,
      decide_eq_true rfl]
    simp
  · rw [if_neg hsame, if_neg hsame]

theorem call_priority (irq q : LnIRQ) (prio : Word) (s : Pfic) :
    (lnIrqSetPriority q prio s).irq irq =
      if concerns irq (.setPriority q prio) = true then irqCall irq (.setPriority q prio) (s.irq irq)
      else s.irq irq := by
  have hword : ∀ x : Word, (x &&& ~~~((0xff : Word) <<< (q.val % 4 * 8))) |||
      (prio <<< 4) <<< (q.val % 4 * 8) = insert x 8 (q.val % 4 * 8) (prio <<< 4) := fun _ => rfl
  have hbyte := fun x => priority_byte x prio (irq.val % 4) (q.val % 4) (Nat.mod_lt _ (by decide))
  have hsameword : irq.val >>> 2 = q.val >>> 2 ↔ q.val / 4 = irq.val / 4 := by
    rw [Nat.shiftRight_eq_div_pow, Nat.shiftRight_eq_div_pow]
    exact eq_comm
  simp only [Pfic.irq, lnIrqSetPriority, update, hword]
  by_cases hwords : q.val / 4 = irq.val / 4
  · have hshift : irq.val >>> 2 = q.val >>> 2 := hsameword.mpr hwords
    rw [if_pos hshift, hbyte, ← hshift]
    by_cases hsame : q = irq
    · subst hsame
      rw [if_pos rfl, if_pos (by simp [concerns]), irqCall, if_pos rfl]
    · have hlanes : q.val % 4 ≠ irq.val % 4 := fun h => hsame (Fin.ext (by omega))
      rw [if_neg hlanes]
      by_cases hlt : q.val % 4 < irq.val % 4
      · rw [if_pos hlt]
        by_cases hprio : 16 ≤ prio.toNat
        · rw [if_pos (by simp [concerns, behind, hwords, hlt, hprio]), irqCall, if_neg hsame]
        · rw [if_neg (by simp [concerns, hsame, hprio]), no_spill prio (by omega) _ (by omega)]
          simp
      · rw [if_neg hlt, if_neg (by simp [concerns, behind, hsame, hlt])]
  · rw [if_neg (fun h => hwords (hsameword.mp h)), if_neg]
    have hsame : ¬ q = irq := fun h => hwords (by rw [h])
    simp [concerns, behind, hsame, hwords]

theorem call_defaults (irq : LnIRQ) (s : Pfic) :
    (defaultPriorities s).irq irq = irqCall irq .defaults (s.irq irq) := by
  have hlt : irq.val >>> 2 < 64 := by
    rw [Nat.shiftRight_eq_div_pow]
    omega
  have hlane : irq.val % 4 < 4 := Nat.mod_lt _ (by decide)
  simp only [Pfic.irq, defaultPriorities, irqCall, if_pos hlt]
  generalize irq.val % 4 = lane at hlane
  interval_cases lane <;> rfl

theorem irq_view (irq : LnIRQ) : View call (concerns irq) (irqCall irq) (Pfic.irq irq) := by
  constructor
  · intro c s hc
    cases c with
    | enable q => exact (call_enable irq q s).trans (if_pos (of_decide_eq_true hc))
    | disable q => exact (call_disable irq q s).trans (if_pos (of_decide_eq_true hc))
    | setPriority q prio => exact (call_priority irq q prio s).trans (if_pos hc)
    | defaults => exact call_defaults irq s
  · intro c s hc
    cases c with
    | enable q => exact (call_enable irq q s).trans (if_neg (of_decide_eq_false hc))
    | disable q => exact (call_disable irq q s).trans (if_neg (of_decide_eq_false hc))
    | setPriority q prio => exact (call_priority irq q prio s).trans (if_neg (by rw [hc]; decide))
    | defaults => cases hc

/-- Whatever is called in whatever order: whether an interrupt is enabled and with which
priority depends on the calls for it alone, and on priorities from sixteen on that are
given to an interrupt before it in its word. -/
theorem interrupts_independent (irq : LnIRQ) (calls : List Call) (s : Pfic) :
    (run call calls s).irq irq = run (irqCall irq) (calls.filter (concerns irq)) (s.irq irq) :=
  view_run (irq_view irq) calls s

end Swindle.Interrupts
