import Swindle.PrintfText

/-!
# What is left in the buffer

A buffer of `count` characters gets the text up to its last character but one,
and the terminator.
-/

set_option autoImplicit false

namespace Swindle.PrintfBuffer
open Swindle.WordMemory Swindle.EmbeddedPrintf Swindle.PrintfText

/-- A text cut to a buffer of `count` characters and terminated, over the old contents. -/
def stored (count : Word) (t : List Byte) (b : Buffer) : Buffer := fun i =>
  let kept := min t.length (count.toNat - 1)
  if count ≤ i then b i
  else if i.toNat < kept then t.getD i.toNat 0
  else if i.toNat = kept then 0
  else b i

theorem out_buffer_at (c : Byte) (idx count : Word) (b : Buffer) (i : Word) :
    outBuffer c idx count b i = if i = idx ∧ idx < count then c else b i := by
  rw [outBuffer]
  by_cases hlt : idx < count
  · simp [hlt, Function.update_apply]
  · rw [if_neg hlt, if_neg (fun h => hlt h.2)]

theorem put_outside (count idx i : Word) (c : Byte) (b : Buffer) (hi : count ≤ i) :
    outBuffer c idx count b i = b i := by
  rw [out_buffer_at, if_neg]
  rintro ⟨rfl,hlt⟩
  exact absurd hlt (BitVec.not_lt.mpr hi)

theorem puts_outside (count i : Word) (hi : count ≤ i) (t : List Byte) (k : Cursor Buffer) :
    (puts outBuffer count t k).sink i = k.sink i := by
  induction t generalizing k with
  | nil => rfl
  | cons c t ih => exact (ih (put outBuffer count c k)).trans (put_outside count k.idx i c k.sink hi)

theorem puts_last (count : Word) (t : List Byte) (c : Byte) (k : Cursor Buffer) (i : Word) :
    (puts outBuffer count (t++[c]) k).sink i =
      if i = k.idx + BitVec.ofNat 32 t.length ∧ k.idx + BitVec.ofNat 32 t.length < count then c
      else (puts outBuffer count t k).sink i := by
  rw [puts_append, ← puts_idx outBuffer count t k]
  exact out_buffer_at ..

/-- Characters written from `k.idx` on, while the index does not wrap. -/
theorem puts_inside (count i : Word) (hi : i < count) (t : List Byte) (k : Cursor Buffer)
    (ht : k.idx.toNat + t.length ≤ 2^32) : (puts outBuffer count t k).sink i =
      if k.idx.toNat ≤ i.toNat ∧ i.toNat < k.idx.toNat + t.length then
        t.getD (i.toNat - k.idx.toNat) 0
      else k.sink i := by
  induction t using List.reverseRecOn with
  | nil => rw [List.length_nil, if_neg (by omega), puts_nil]
  | append_singleton t c ih =>
    rw [List.length_append, List.length_singleton] at ht
    have hidx : (k.idx + BitVec.ofNat 32 t.length).toNat = k.idx.toNat + t.length := by
      rw [offset_toNat, Nat.mod_eq_of_lt (by omega)]
    rw [puts_last, List.length_append, List.length_singleton]
    by_cases heq : i = k.idx + BitVec.ofNat 32 t.length
    · have hn : i.toNat = k.idx.toNat + t.length := by rw [heq, hidx]
      rw [if_pos ⟨heq,heq ▸ hi⟩, if_pos (by omega), List.getD_append_right _ _ _ _ (by omega),
        show i.toNat - k.idx.toNat - t.length = 0 by omega, List.getD_cons_zero]
    · have hn : i.toNat ≠ k.idx.toNat + t.length := fun h =>
        heq (BitVec.eq_of_toNat_eq (h.trans hidx.symm))
      rw [if_neg (fun h => heq h.1), ih (by omega)]
      by_cases hin : k.idx.toNat ≤ i.toNat ∧ i.toNat < k.idx.toNat + t.length
      · rw [if_pos hin, if_pos (by omega), List.getD_append _ _ _ _ (by omega)]
      · rw [if_neg hin, if_neg (by omega)]

/-- The terminator goes behind the text, or over the last character that has room. -/
theorem terminated (count : Word) (t : List Byte) (b : Buffer) (ht : t.length < 2^32) :
    outBuffer 0 (if BitVec.ofNat 32 t.length < count then BitVec.ofNat 32 t.length else count - 1)
      count (puts outBuffer count t ⟨0,b⟩).sink = stored count t b := by
  funext i
  have hcount := count.isLt
  have hidx : (BitVec.ofNat 32 t.length).toNat = t.length := by
    rw [BitVec.toNat_ofNat, Nat.mod_eq_of_lt ht]
  by_cases hi : count ≤ i
  · rw [stored, if_pos hi, put_outside count _ i 0 _ hi, puts_outside count i hi]
  · have hlt : i < count := BitVec.not_le.mp hi
    have hin : i.toNat < count.toNat := hlt
    have hone : (count - 1).toNat = count.toNat - 1 := by
      rw [BitVec.toNat_sub_of_le (by rw [BitVec.le_def]; simp; omega)]
      rfl
    have hend : (if BitVec.ofNat 32 t.length < count then BitVec.ofNat 32 t.length
        else count - 1).toNat = min t.length (count.toNat - 1) := by
      split_ifs with h <;> rw [BitVec.lt_def, hidx] at h <;> omega
    have hbound : (if BitVec.ofNat 32 t.length < count then BitVec.ofNat 32 t.length
        else count - 1) < count := by
      rw [BitVec.lt_def, hend]
      omega
    have hzero : (⟨0,b⟩ : Cursor Buffer).idx.toNat = 0 := rfl
    have hput := puts_inside count i hlt t ⟨0,b⟩ (by omega)
    rw [hzero, Nat.zero_add, Nat.sub_zero] at hput
    simp only [out_buffer_at, stored, if_neg hi]
    by_cases heq : i.toNat = min t.length (count.toNat - 1)
    · rw [if_pos ⟨BitVec.eq_of_toNat_eq (heq.trans hend.symm),hbound⟩, if_neg (by omega), if_pos heq]
    · rw [if_neg (fun h => heq (by rw [h.1, hend])), hput, if_neg heq]
      by_cases htext : i.toNat < t.length
      · rw [if_pos ⟨Nat.zero_le _,htext⟩, if_pos (by omega)]
      · rw [if_neg (fun h => htext h.2), if_neg (by omega)]

/-- The result of `snprintf` is the length of the whole text, whatever the buffer has room
for. Nothing outside the buffer is written, and within it stands the text, cut
where it must be, with the terminator behind it. -/
theorem snprintf_stored (b : Buffer) (count : Word) (format : List Byte) (va : List Arg) :
    (formatText format va = none → snprintf (some b) count format va = none) ∧
      ∀ t, formatText format va = some t → ∃ b',
        snprintf (some b) count format va = some (BitVec.ofNat 32 t.length,some b') ∧
          snprintf none count format va = some (BitVec.ofNat 32 t.length,none) ∧
          (∀ i, count ≤ i → b' i = b i) ∧ (t.length < 2^32 → b' = stored count t b) := by
  constructor
  · intro hnone
    rw [snprintf, core_text, hnone]
    rfl
  · intro t ht
    refine ⟨_,?_,?_,?_,terminated count t b⟩
    · rw [snprintf, core_text, ht]
      rfl
    · rw [snprintf, core_text, ht]
      rfl
    · intro i hi
      rw [put_outside count _ i 0 _ hi, puts_outside count i hi]

end Swindle.PrintfBuffer
