import Mathlib

/-!
# Shift registers over GF(2)

A register of `n` bits that is shifted to the left, with feedback `g`, and fed
with words from their highest bit down. A word stands for a polynomial; a shift
multiplies by `X` modulo `X^n + g`. Whether two strings of words leave the same
register is then a question of divisibility.
-/

set_option autoImplicit false

namespace Swindle.ShiftRegister
noncomputable section
open Polynomial

variable {n k : ℕ}

/-! ## Words as polynomials -/

def bit (b : Bool) : ZMod 2 := if b then 1 else 0

theorem bit_xor (a b : Bool) : bit (a ^^ b) = bit a + bit b := by
  cases a <;> cases b <;> decide

theorem bit_injective : Function.Injective bit := by decide

def poly (w : BitVec n) : (ZMod 2)[X] := ∑ i ∈ Finset.range n, monomial i (bit (w.getLsbD i))

theorem poly_coeff (w : BitVec n) (i : ℕ) : (poly w).coeff i = bit (w.getLsbD i) := by
  by_cases hi : i < n
  · simp [poly, coeff_monomial, hi]
  · simp [poly, coeff_monomial, hi, BitVec.getLsbD_of_ge w i (by omega), bit]

theorem poly_xor (a b : BitVec n) : poly (a ^^^ b) = poly a + poly b := by
  ext i
  rw [coeff_add, poly_coeff, poly_coeff, poly_coeff, BitVec.getLsbD_xor, bit_xor]

theorem poly_degree (w : BitVec n) : (poly w).degree < n := by
  rw [degree_lt_iff_coeff_zero]
  intro i hi
  rw [poly_coeff, BitVec.getLsbD_of_ge w i hi]
  rfl

theorem poly_injective : Function.Injective (poly : BitVec n → (ZMod 2)[X]) := by
  intro a b h
  apply BitVec.eq_of_getLsbD_eq
  intro i _
  apply bit_injective
  rw [← poly_coeff, h, poly_coeff]

theorem poly_append (a : BitVec n) (b : BitVec k) : poly (a ++ b) = X^k*poly a + poly b := by
  ext i
  rw [coeff_add, coeff_X_pow_mul', poly_coeff, poly_coeff, poly_coeff, BitVec.getLsbD_append]
  by_cases hi : i < k
  · simp [hi]
  · simp [hi, Nat.le_of_not_lt hi, bit]

/-- A word moved up to the highest bits of a wider one. -/
theorem poly_raise (w : BitVec k) (hk : k ≤ n) :
    poly (w.setWidth n <<< (n-k)) = X^(n-k)*poly w := by
  ext i
  rw [coeff_X_pow_mul', poly_coeff, poly_coeff, BitVec.getLsbD_shiftLeft, BitVec.getLsbD_setWidth]
  by_cases hi : n-k ≤ i
  · by_cases hin : i < n
    · simp [hi, hin, Nat.not_lt.mpr hi, Nat.lt_of_le_of_lt (Nat.sub_le i (n-k)) hin]
    · simp [hi, hin, BitVec.getLsbD_of_ge w (i-(n-k)) (by omega)]
  · simp [hi, Nat.lt_of_not_le hi, bit]

/-! ## The register -/

def shift (g s : BitVec n) : BitVec n := if s.msb then s <<< 1 ^^^ g else s <<< 1

/-- Feed a word of at most `n` bits, highest bit first. -/
def feed (g s : BitVec n) (w : BitVec k) : BitVec n :=
  (shift g)^[k] (s ^^^ w.setWidth n <<< (n-k))

def modulus (g : BitVec n) : (ZMod 2)[X] := X^n + poly g

def residue (g s : BitVec n) : AdjoinRoot (modulus g) := AdjoinRoot.mk (modulus g) (poly s)

theorem modulus_degree (g : BitVec n) : (modulus g).degree = n := by
  rw [modulus, degree_add_eq_left_of_degree_lt, degree_X_pow]
  rw [degree_X_pow]
  exact poly_degree g

theorem modulus_divides_small (g : BitVec n) (p : (ZMod 2)[X]) (hp : p.degree < n)
    (h : modulus g ∣ p) : p = 0 := by
  apply eq_zero_of_dvd_of_degree_lt h
  rw [modulus_degree]
  exact hp

theorem residue_injective (g : BitVec n) : Function.Injective (residue g) := by
  intro a b h
  have hd : modulus g ∣ poly a - poly b := AdjoinRoot.mk_eq_mk.mp h
  have hlt : (poly a - poly b).degree < n :=
    lt_of_le_of_lt (degree_sub_le _ _) (max_lt (poly_degree a) (poly_degree b))
  exact poly_injective (sub_eq_zero.mp (modulus_divides_small g _ hlt hd))

theorem residue_xor (g a b : BitVec n) : residue g (a ^^^ b) = residue g a + residue g b := by
  rw [residue, poly_xor, map_add]
  rfl

/-- Before the feedback is added, a shift drops the highest bit. -/
theorem poly_shiftLeft (s : BitVec n) :
    X*poly s = poly (s <<< 1) + if s.msb then X^n else 0 := by
  ext i
  rw [coeff_add, poly_coeff, BitVec.getLsbD_shiftLeft, BitVec.msb_eq_getLsbD_last]
  cases i with
  | zero =>
    rw [coeff_X_mul_zero]
    cases n with
    | zero => simp [bit]
    | succ n => split_ifs <;> simp [bit, coeff_X_pow]
  | succ i =>
    rw [coeff_X_mul, poly_coeff]
    rcases Nat.lt_trichotomy (i+1) n with hi | hi | hi
    · split_ifs <;> simp [hi, hi.ne, coeff_X_pow]
    · subst hi
      cases h : s.getLsbD i <;> simp [h, bit, -BitVec.getLsbD_eq_getElem]
    · rw [BitVec.getLsbD_of_ge s i (by omega)]
      split_ifs <;> simp [Nat.not_lt_of_lt hi, hi.ne', coeff_X_pow, bit]

theorem residue_shift (g s : BitVec n) :
    residue g (shift g s) = AdjoinRoot.root (modulus g)*residue g s := by
  have hs : poly (shift g s) = X*poly s + if s.msb then modulus g else 0 := by
    rw [poly_shiftLeft, shift]
    split_ifs with h
    · have hc : (X^n + X^n : (ZMod 2)[X]) = 0 := CharTwo.add_self_eq_zero _
      rw [poly_xor, modulus, add_assoc, ← add_assoc (X^n), hc, zero_add]
    · rw [add_zero, add_zero]
  rw [residue, hs, map_add, map_mul, AdjoinRoot.mk_X]
  split_ifs
  · rw [AdjoinRoot.mk_self, add_zero]
    rfl
  · rw [map_zero, add_zero]
    rfl

theorem residue_shifts (g s : BitVec n) (i : ℕ) :
    residue g ((shift g)^[i] s) = AdjoinRoot.root (modulus g)^i*residue g s := by
  induction i with
  | zero => rw [pow_zero, one_mul, Function.iterate_zero_apply]
  | succ i ih => rw [Function.iterate_succ_apply', residue_shift, ih, pow_succ', mul_assoc]

theorem residue_feed (g s : BitVec n) (w : BitVec k) (hk : k ≤ n) :
    residue g (feed g s w) = AdjoinRoot.root (modulus g)^k*residue g s +
      AdjoinRoot.root (modulus g)^n*AdjoinRoot.mk (modulus g) (poly w) := by
  have hw : residue g (w.setWidth n <<< (n-k)) =
      AdjoinRoot.root (modulus g)^(n-k)*AdjoinRoot.mk (modulus g) (poly w) := by
    rw [residue, poly_raise w hk, map_mul, map_pow, AdjoinRoot.mk_X]
  rw [feed, residue_shifts, residue_xor, hw, mul_add, ← mul_assoc, ← pow_add, Nat.add_sub_of_le hk]

/-! ## Strings of words -/

/-- The polynomial of a string of words; the first word stands highest. -/
def message : List (BitVec k) → (ZMod 2)[X]
  | [] => 0
  | w::ws => X^(k*ws.length)*poly w + message ws

theorem residue_fold (g : BitVec n) (hk : k ≤ n) (ws : List (BitVec k)) (s : BitVec n) :
    residue g (ws.foldl (feed g) s) = AdjoinRoot.root (modulus g)^(k*ws.length)*residue g s +
      AdjoinRoot.root (modulus g)^n*AdjoinRoot.mk (modulus g) (message ws) := by
  induction ws generalizing s with
  | nil => simp [message]
  | cons w ws ih =>
    rw [List.foldl_cons, ih, residue_feed g s w hk, message, map_add, map_mul, map_pow,
      AdjoinRoot.mk_X, List.length_cons]
    ring

/-- Feedback into the lowest bit makes the shift invertible. -/
theorem modulus_coprime (g : BitVec n) (hg : g.getLsbD 0 = true) (i : ℕ) :
    IsCoprime (modulus g) (X^i) := by
  have hn : n ≠ 0 := by
    rintro rfl
    simp at hg
  have hX : ¬ X ∣ modulus g := by
    rw [X_dvd_iff, modulus, coeff_add, coeff_X_pow, poly_coeff, hg, if_neg hn.symm]
    decide
  exact ((irreducible_X.coprime_iff_not_dvd.mpr hX).pow_left).symm

/-- Two strings of as many bits leave the same register exactly when their
difference is a multiple of the feedback polynomial. -/
theorem fold_eq_iff {j : ℕ} (g : BitVec n) (hg : g.getLsbD 0 = true) (hk : k ≤ n) (hj : j ≤ n)
    (ws : List (BitVec k)) (vs : List (BitVec j)) (hl : k*ws.length = j*vs.length)
    (s : BitVec n) :
    ws.foldl (feed g) s = vs.foldl (feed g) s ↔ modulus g ∣ message ws - message vs := by
  have hdiff : residue g (ws.foldl (feed g) s) - residue g (vs.foldl (feed g) s) =
      AdjoinRoot.mk (modulus g) (X^n*(message ws - message vs)) := by
    rw [residue_fold g hk, residue_fold g hj, hl, map_mul, map_pow, map_sub, AdjoinRoot.mk_X]
    ring
  rw [← (residue_injective g).eq_iff, ← sub_eq_zero, hdiff, AdjoinRoot.mk_eq_zero]
  exact ⟨(modulus_coprime g hg n).dvd_of_dvd_mul_left,fun h => h.mul_left _⟩

/-! ## Bursts -/

/-- Bit `i` of a string in feeding order. -/
def fedBit (ws : List (BitVec k)) (i : ℕ) : Bool := (ws.getD (i/k) 0).getMsbD (i%k)

/-- The strings differ, but at most within `len` consecutive bits. -/
def Burst (len : ℕ) (ws vs : List (BitVec k)) : Prop :=
  ws ≠ vs ∧ ∃ first, ∀ i, fedBit ws i ≠ fedBit vs i → first ≤ i ∧ i < first+len

/-- A change of one word is a burst. -/
theorem word_burst (ws : List (BitVec k)) (i : ℕ) (hi : i < ws.length) (w : BitVec k)
    (hw : ws[i] ≠ w) : Burst k ws (ws.set i w) := by
  refine ⟨?_,k*i,?_⟩
  · intro h
    apply hw
    have hget := congrArg (fun us => us[i]?) h
    simp only [List.getElem?_set_self hi, List.getElem?_eq_getElem hi] at hget
    exact Option.some.inj hget
  · intro j hj
    have hdiv : i = j/k := by
      by_contra hne
      apply hj
      rw [fedBit, fedBit, List.getD_eq_getElem?_getD, List.getD_eq_getElem?_getD,
        List.getElem?_set_ne hne]
    have hk : 0 < k := by
      rcases Nat.eq_zero_or_pos k with rfl | hk
      · exact absurd (Subsingleton.elim _ _) hw
      · exact hk
    have hlt := Nat.lt_mul_div_succ j hk
    rw [hdiv]
    exact ⟨Nat.mul_div_le j k,by rw [Nat.mul_succ] at hlt; exact hlt⟩

theorem message_degree (ws : List (BitVec k)) : (message ws).degree < (k*ws.length : ℕ) := by
  rw [degree_lt_iff_coeff_zero]
  induction ws with
  | nil => simp [message]
  | cons w ws ih =>
    intro i hi
    rw [List.length_cons, Nat.mul_succ] at hi
    rw [message, coeff_add, coeff_X_pow_mul', if_pos (by omega), ih i (by omega), poly_coeff,
      BitVec.getLsbD_of_ge w _ (by omega)]
    rfl

theorem message_coeff (ws : List (BitVec k)) (i : ℕ) (hi : i < k*ws.length) :
    (message ws).coeff (k*ws.length-1-i) = bit (fedBit ws i) := by
  induction ws generalizing i with
  | nil => simp at hi
  | cons w ws ih =>
    rw [List.length_cons, Nat.mul_succ] at hi ⊢
    rw [message, coeff_add, coeff_X_pow_mul', fedBit]
    by_cases hw : i < k
    · have hp : k*ws.length + k - 1 - i - k*ws.length = k-1-i := by omega
      have hz : (message ws).coeff (k*ws.length + k - 1 - i) = 0 :=
        degree_lt_iff_coeff_zero _ _ |>.mp (message_degree ws) _ (by omega)
      rw [if_pos (by omega), hz, hp, poly_coeff, add_zero, Nat.div_eq_of_lt hw, Nat.mod_eq_of_lt hw,
        List.getD_cons_zero, BitVec.getMsbD_eq_getLsbD, decide_eq_true hw, Bool.true_and]
    · have hk : 0 < k := by
        rcases Nat.eq_zero_or_pos k with rfl | hk
        · simp at hi
        · exact hk
      have hp : k*ws.length + k - 1 - i = k*ws.length - 1 - (i-k) := by omega
      have hd : i/k = (i-k)/k + 1 := by
        rw [← Nat.add_div_right _ hk, Nat.sub_add_cancel (Nat.le_of_not_lt hw)]
      rw [if_neg (by omega), zero_add, hp, ih (i-k) (by omega), hd, List.getD_cons_succ,
        Nat.mod_eq_sub_mod (Nat.le_of_not_lt hw)]
      rfl

theorem message_injective (ws vs : List (BitVec k)) (hl : ws.length = vs.length)
    (h : message ws = message vs) : ws = vs := by
  induction ws generalizing vs with
  | nil => exact (List.length_eq_zero_iff.mp hl.symm).symm
  | cons w ws ih =>
    cases vs with
    | nil => simp at hl
    | cons v vs =>
      have hlen : ws.length = vs.length := Nat.succ.inj hl
      have hhigh : ∀ us : List (BitVec k), us.length = vs.length → ∀ i,
          (message us).coeff (i + k*vs.length) = 0 := by
        intro us hu i
        rw [← hu]
        exact (degree_lt_iff_coeff_zero _ _).mp (message_degree us) _ (by omega)
      have hw : w = v := by
        apply poly_injective
        ext i
        have hc := congrArg (fun p => p.coeff (i + k*vs.length)) h
        simp only [message, hlen, coeff_add, coeff_X_pow_mul] at hc
        rw [hhigh ws hlen, hhigh vs rfl, add_zero, add_zero] at hc
        exact hc
      rw [hw, message, message, hlen] at h
      rw [hw, ih vs hlen (add_left_cancel h)]

/-- A polynomial with all its coefficients in `n` places in a row, whatever the
place, is no multiple of the feedback polynomial. -/
theorem modulus_divides_window (g : BitVec n) (hg : g.getLsbD 0 = true) (low : ℕ)
    (p : (ZMod 2)[X]) (hp : ∀ i, i < low ∨ low+n ≤ i → p.coeff i = 0) (h : modulus g ∣ p) :
    p = 0 := by
  obtain ⟨q,rfl⟩ := X_pow_dvd_iff.mpr (fun i hi => hp i (Or.inl hi))
  have hq : q.degree < n := by
    rw [degree_lt_iff_coeff_zero]
    intro i hi
    rw [← coeff_X_pow_mul q low i]
    exact hp (i+low) (Or.inr (by omega))
  rw [modulus_divides_small g q hq ((modulus_coprime g hg low).dvd_of_dvd_mul_left h), mul_zero]

/-- A burst no longer than the register is always seen. -/
theorem burst_detected (g : BitVec n) (hg : g.getLsbD 0 = true) (hk : k ≤ n)
    (ws vs : List (BitVec k)) (hl : ws.length = vs.length) (hb : Burst n ws vs) (s : BitVec n) :
    ws.foldl (feed g) s ≠ vs.foldl (feed g) s := by
  obtain ⟨hne,first,hfirst⟩ := hb
  rw [Ne, fold_eq_iff g hg hk hk ws vs (by rw [hl])]
  intro hdvd
  apply hne
  apply message_injective ws vs hl
  rw [← sub_eq_zero]
  apply modulus_divides_window g hg (k*ws.length - (first+n)) _ _ hdvd
  intro d hd
  rw [coeff_sub, sub_eq_zero]
  by_cases hin : d < k*ws.length
  · obtain ⟨i,hi,rfl⟩ : ∃ i, i < k*ws.length ∧ d = k*ws.length-1-i :=
      ⟨k*ws.length-1-d,by omega,by omega⟩
    have hv := message_coeff vs i (by rw [← hl]; exact hi)
    rw [← hl] at hv
    rw [message_coeff ws i hi, hv]
    by_contra hc
    have hwin := hfirst i (fun he => hc (congrArg bit he))
    omega
  · have hw := (degree_lt_iff_coeff_zero _ _).mp (message_degree ws) d (by omega)
    have hv := (degree_lt_iff_coeff_zero _ _).mp (message_degree vs) d (by rw [← hl]; omega)
    rw [hw, hv]

end

end Swindle.ShiftRegister
