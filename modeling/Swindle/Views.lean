import Swindle.MachineRuns

/-!
# Views of the parts of a machine

A step of the machine either concerns a part and acts on what is seen of it alone,
or leaves what is seen of it as it is. What is seen of a part after a run then
depends on the inputs that concern it and on nothing else. The parts of a register
are its fields.
-/

set_option autoImplicit false

namespace Swindle.Views

open MachineRuns

section Parts
variable {ι σ ρ : Type*}

structure View (step : ι → σ → σ) (concerns : ι → Bool) (act : ι → ρ → ρ) (view : σ → ρ) : Prop where
  own : ∀ i s, concerns i = true → view (step i s) = act i (view s)
  other : ∀ i s, concerns i = false → view (step i s) = view s

variable {step : ι → σ → σ} {concerns : ι → Bool} {act : ι → ρ → ρ} {view : σ → ρ}

theorem view_run (h : View step concerns act view) (is : List ι) (s : σ) :
    view (run step is s) = run act (is.filter concerns) (view s) := by
  induction is generalizing s with
  | nil => rfl
  | cons i is ih =>
    cases hi : concerns i with
    | true => rw [run, ih, h.own i s hi, List.filter_cons_of_pos hi, run]
    | false => rw [run, ih, h.other i s hi, List.filter_cons_of_neg (by rw [hi]; decide)]

end Parts

/-! ## Coarser machines -/

section Coarse
variable {ι κ σ ρ : Type*}

/-- The inputs that a coarser machine has of a run. -/
def seen (step : ι → σ → σ) (inputs : ι → σ → List κ) : List ι → σ → List κ
  | [], _ => []
  | i::is, s => inputs i s ++ seen step inputs is (step i s)

/-- If every step is some steps of the coarser machine, or none, every run is a run of it. -/
theorem view_seen (step : ι → σ → σ) (inputs : ι → σ → List κ) (coarse : κ → ρ → ρ) (view : σ → ρ)
    (h : ∀ i s, view (step i s) = run coarse (inputs i s) (view s)) (is : List ι) (s : σ) :
    view (run step is s) = run coarse (seen step inputs is s) (view s) := by
  induction is generalizing s with
  | nil => rfl
  | cons i is ih => rw [run, ih, h, seen, run_append]

end Coarse

/-! ## Fields of a word -/

section Fields
variable {w n : ℕ}

def mask (w n : ℕ) : BitVec w := BitVec.ofNat w (2^n - 1)

def insert (x : BitVec w) (n shift : ℕ) (v : BitVec w) : BitVec w :=
  (x &&& ~~~(mask w n <<< shift)) ||| (v <<< shift)

theorem mask_bit (i : ℕ) : (mask w n).getLsbD i = (decide (i < w) && decide (i < n)) := by
  rw [mask, BitVec.getLsbD_ofNat, Nat.testBit_two_pow_sub_one]

theorem insert_bits (x v : BitVec w) (shift i : ℕ) : (insert x n shift v).getLsbD i =
    ((!decide (shift ≤ i ∧ i < shift + n) && x.getLsbD i) ||
      (decide (i < w ∧ shift ≤ i) && v.getLsbD (i - shift))) := by
  have hx := @BitVec.getLsbD_of_ge w x i
  simp only [insert, BitVec.getLsbD_or, BitVec.getLsbD_and, BitVec.getLsbD_not,
    BitVec.getLsbD_shiftLeft, mask_bit]
  by_cases hlt : i < w
  · by_cases hlow : i < shift
    · simp [hlt, hlow, show ¬ shift ≤ i by omega]
    · have hin : i - shift < n ↔ i < shift + n := by omega
      simp [hlt, hlow, show shift ≤ i by omega, show i - shift < w by omega, hin, Bool.and_comm]
  · simp [hlt, hx (by omega)]

theorem insert_bit (x v : BitVec w) (shift i : ℕ) (hv : ∀ j, n ≤ j → v.getLsbD j = false) :
    (insert x n shift v).getLsbD i =
      if shift ≤ i ∧ i < shift + n then decide (i < w) && v.getLsbD (i - shift)
      else x.getLsbD i := by
  rw [insert_bits]
  split
  · next h => simp [h.1, h.2]
  · next h =>
    by_cases hlow : shift ≤ i
    · rw [hv (i - shift) (by omega), decide_eq_false h]
      simp
    · rw [decide_eq_false h, decide_eq_false (fun hc => hlow hc.2)]
      simp

theorem field_insert (x v : BitVec w) (shift : ℕ) (hin : shift + n ≤ w)
    (hv : ∀ j, n ≤ j → v.getLsbD j = false) :
    (insert x n shift v).extractLsb' shift n = v.setWidth n := by
  apply BitVec.eq_of_getLsbD_eq
  intro i hi
  rw [BitVec.getLsbD_extractLsb', insert_bit x v shift _ hv, if_pos (by omega),
    BitVec.getLsbD_setWidth, Nat.add_sub_cancel_left]
  simp [hi, show shift + i < w by omega]

theorem field_insert_apart (x v : BitVec w) (shift at' : ℕ) (hv : ∀ j, n ≤ j → v.getLsbD j = false)
    (happart : at' + n ≤ shift ∨ shift + n ≤ at') :
    (insert x n shift v).extractLsb' at' n = x.extractLsb' at' n := by
  apply BitVec.eq_of_getLsbD_eq
  intro i hi
  rw [BitVec.getLsbD_extractLsb', BitVec.getLsbD_extractLsb', insert_bit x v shift _ hv,
    if_neg (by omega)]

end Fields

end Swindle.Views
