import Swindle.WordMemory

/-!
# Copying and filling word by word

What a number of words copied or filled one after the other does to a memory,
and the bytes it leaves alone.
-/

set_option autoImplicit false

namespace Swindle.WordLoops
open Swindle.WordMemory

def copyWords : ℕ → Addr → Addr → Memory → Memory
  | 0, _, _, m => m
  | n+1, src, dst, m => copyWords n (src + 4) (dst + 4) (writeWord m dst (readWord m src))

def fillWords (w : Word) : ℕ → Addr → Memory → Memory
  | 0, _, m => m
  | n+1, dst, m => fillWords w n (dst + 4) (writeWord m dst w)

def storeBytes : List Byte → Addr → Memory → Memory
  | [], _, m => m
  | c::cs, a, m => storeBytes cs (a + 1) (Function.update m a c)

/-- `n` bytes from `a` on, which do not go around the end of the addresses. -/
def span (a : Addr) (n : ℕ) : Set Addr := {x | a.toNat ≤ x.toNat ∧ x.toNat < a.toNat + n}

theorem mem_span {a x : Addr} {n : ℕ} :
    x ∈ span a n ↔ a.toNat ≤ x.toNat ∧ x.toNat < a.toNat + n := Iff.rfl

theorem span_offset {a x : Addr} {n : ℕ} (hx : x ∈ span a n) :
    x.toNat - a.toNat < n ∧ x = a + BitVec.ofNat 32 (x.toNat - a.toNat) := by
  rw [mem_span] at hx
  have hlt := x.isLt
  refine ⟨by omega,BitVec.eq_of_toNat_eq ?_⟩
  rw [offset_toNat]
  omega

theorem write_outside (m : Memory) (a : Addr) (w : Word) (x : Addr) (ha : a.toNat + 4 ≤ 2^32)
    (hx : x.toNat < a.toNat ∨ a.toNat + 4 ≤ x.toNat) : writeWord m a w x = m x := by
  rw [writeWord, if_neg]
  bv_omega

theorem write_inside (m : Memory) (a : Addr) (w : Word) (k : ℕ) (hk : k < 4) :
    writeWord m a w (a + BitVec.ofNat 32 k) = byteOf w k := by
  have hoff : a + BitVec.ofNat 32 k - a = BitVec.ofNat 32 k := add_sub_cancel_left a _
  have hval : (BitVec.ofNat 32 k).toNat = k := by rw [BitVec.toNat_ofNat, Nat.mod_eq_of_lt (by omega)]
  rw [writeWord, hoff, if_pos (by rw [BitVec.lt_def, hval]; exact hk), hval]

theorem word_byte (m : Memory) (a : Addr) (k : ℕ) (hk : k < 4) :
    byteOf (readWord m a) k = m (a + BitVec.ofNat 32 k) := by
  have h := byteOf_littleEndian (fun k => m (a + BitVec.ofNat 32 k)) k hk
  rw [← h, readWord]
  simp

theorem step_toNat (a : Addr) (h : a.toNat + 4 < 2^32) : (a + 4).toNat = a.toNat + 4 := by
  bv_omega

section Loops
variable (n : ℕ)

theorem copy_outside (src dst : Addr) (m : Memory) (hdst : dst.toNat + 4*n < 2^32) :
    AgreeOff (span dst (4*n)) m (copyWords n src dst m) := by
  induction n generalizing src dst m with
  | zero => exact fun _ _ => rfl
  | succ n ih =>
    intro x hx
    rw [mem_span] at hx
    have hnext := step_toNat dst (by omega)
    rw [copyWords, ih (src + 4) (dst + 4) _ (by omega) x (by rw [mem_span]; omega),
      write_outside m dst _ x (by omega) (by omega)]

/-- Words copied between ranges that do not meet. -/
theorem copy_inside (src dst : Addr) (m : Memory) (hsrc : src.toNat + 4*n < 2^32)
    (hdst : dst.toNat + 4*n < 2^32)
    (hapart : src.toNat + 4*n ≤ dst.toNat ∨ dst.toNat + 4*n ≤ src.toNat) (i : ℕ) (hi : i < 4*n) :
    copyWords n src dst m (dst + BitVec.ofNat 32 i) = m (src + BitVec.ofNat 32 i) := by
  induction n generalizing src dst m i with
  | zero => omega
  | succ n ih =>
    have hs := step_toNat src (by omega)
    have hd := step_toNat dst (by omega)
    have hdi : (dst + BitVec.ofNat 32 i).toNat = dst.toNat + i := by
      rw [offset_toNat, Nat.mod_eq_of_lt (by omega)]
    have hsi : (src + BitVec.ofNat 32 i).toNat = src.toNat + i := by
      rw [offset_toNat, Nat.mod_eq_of_lt (by omega)]
    rw [copyWords]
    by_cases h : i < 4
    · rw [copy_outside n (src + 4) (dst + 4) _ (by omega) _ (by rw [mem_span]; omega),
        write_inside m dst _ i h, word_byte m src i h]
    · have hsplit : ∀ a : Addr, a + BitVec.ofNat 32 i = a + 4 + BitVec.ofNat 32 (i-4) := by
        intro a
        rw [show (4 : Addr) = BitVec.ofNat 32 4 from rfl, offset_offset, Nat.add_sub_cancel' (by omega)]
      rw [hsplit dst, ih (src + 4) (dst + 4) _ (by omega) (by omega) (by omega) (i-4) (by omega),
        ← hsplit src, write_outside m dst _ _ (by omega) (by omega)]

theorem fill_outside (w : Word) (dst : Addr) (m : Memory) (hdst : dst.toNat + 4*n < 2^32) :
    AgreeOff (span dst (4*n)) m (fillWords w n dst m) := by
  induction n generalizing dst m with
  | zero => exact fun _ _ => rfl
  | succ n ih =>
    intro x hx
    rw [mem_span] at hx
    have hnext := step_toNat dst (by omega)
    rw [fillWords, ih (dst + 4) _ (by omega) x (by rw [mem_span]; omega),
      write_outside m dst _ x (by omega) (by omega)]

theorem fill_inside (dst : Addr) (m : Memory) (hdst : dst.toNat + 4*n < 2^32) (x : Addr)
    (hx : x ∈ span dst (4*n)) : fillWords 0 n dst m x = 0 := by
  induction n generalizing dst m with
  | zero => rw [mem_span] at hx; omega
  | succ n ih =>
    have hnext := step_toNat dst (by omega)
    rw [mem_span] at hx
    rw [fillWords]
    by_cases h : x.toNat < dst.toNat + 4
    · obtain ⟨hk,hxk⟩ := span_offset (show x ∈ span dst 4 from ⟨hx.1,h⟩)
      rw [fill_outside n 0 (dst + 4) _ (by omega) x (by rw [mem_span]; omega), hxk,
        write_inside m dst 0 _ hk, byteOf]
      simp
    · exact ih (dst + 4) _ (by omega) (by rw [mem_span]; omega)

end Loops

theorem store_outside (cs : List Byte) (a : Addr) (m : Memory) (h : a.toNat + cs.length < 2^32) :
    AgreeOff (span a cs.length) m (storeBytes cs a m) := by
  induction cs generalizing a m with
  | nil => exact fun _ _ => rfl
  | cons c cs ih =>
    intro x hx
    rw [mem_span] at hx
    rw [List.length_cons] at h hx
    have hnext : (a + 1).toNat = a.toNat + 1 := by bv_omega
    have hne : x ≠ a := fun he => by rw [he] at hx; omega
    rw [storeBytes, ih (a + 1) _ (by omega) x (by rw [mem_span]; omega), Function.update_of_ne hne]

theorem store_inside (cs : List Byte) (a : Addr) (m : Memory) (h : a.toNat + cs.length < 2^32)
    (i : ℕ) (hi : i < cs.length) : storeBytes cs a m (a + BitVec.ofNat 32 i) = cs.getD i 0 := by
  induction cs generalizing a m i with
  | nil => cases hi
  | cons c cs ih =>
    rw [List.length_cons] at h hi
    have hnext : (a + 1).toNat = a.toNat + 1 := by bv_omega
    rw [storeBytes]
    cases i with
    | zero =>
      rw [store_outside cs (a + 1) _ (by omega) _ (by rw [mem_span]; simp; omega)]
      simp
    | succ i =>
      rw [Nat.add_comm i 1, ← offset_offset a 1 i]
      rw [show a + BitVec.ofNat 32 1 = a + 1 from rfl, ih (a + 1) _ (by omega) i (by omega),
        Nat.add_comm 1 i, List.getD_cons_succ]

end Swindle.WordLoops
