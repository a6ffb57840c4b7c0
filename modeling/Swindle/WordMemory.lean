import Mathlib

/-!
# Byte memories on a 32-bit bus

Little-endian words, aligned blocks, and memories that agree away from a set
of addresses. Nothing here depends on what the memory is used for.
-/

set_option autoImplicit false

namespace Swindle.WordMemory

abbrev Addr := BitVec 32
abbrev Word := BitVec 32
abbrev Byte := BitVec 8
abbrev Memory := Addr → Byte

def littleEndian (b0 b1 b2 b3 : Byte) : Word :=
  BitVec.ofNat 32 (b0.toNat + 2^8*b1.toNat + 2^16*b2.toNat + 2^24*b3.toNat)

def byteOf (w : Word) (k : ℕ) : Byte := BitVec.ofNat 8 (w.toNat / 2^(8*k))

def readWord (m : Memory) (a : Addr) : Word :=
  littleEndian (m a) (m (a+1)) (m (a+2)) (m (a+3))

def writeWord (m : Memory) (a : Addr) (w : Word) : Memory := fun x =>
  if x - a < 4 then byteOf w (x-a).toNat else m x

def storeAll : List (Addr × Word) → Memory → Memory
  | [], m => m
  | aw::ws, m => storeAll ws (writeWord m aw.1 aw.2)

theorem offset_toNat (p : Addr) (n : ℕ) :
    (p + BitVec.ofNat 32 n).toNat = (p.toNat + n) % 2^32 := by
  rw [BitVec.toNat_add, BitVec.toNat_ofNat, Nat.add_mod_mod]

theorem offset_offset (p : Addr) (m n : ℕ) :
    p + BitVec.ofNat 32 m + BitVec.ofNat 32 n = p + BitVec.ofNat 32 (m+n) := by
  rw [BitVec.ofNat_add, add_assoc]

theorem readWord_offset (m : Memory) (p : Addr) (i : ℕ) :
    readWord m (p + 4*BitVec.ofNat 32 i) =
      littleEndian (m (p + BitVec.ofNat 32 (4*i))) (m (p + BitVec.ofNat 32 (4*i+1)))
        (m (p + BitVec.ofNat 32 (4*i+2))) (m (p + BitVec.ofNat 32 (4*i+3))) := by
  have h : (4 : Addr)*BitVec.ofNat 32 i = BitVec.ofNat 32 (4*i) := (BitVec.ofNat_mul 4 i).symm
  rw [readWord, h, ← offset_offset p (4*i) 1, ← offset_offset p (4*i) 2, ← offset_offset p (4*i) 3]
  rfl

theorem littleEndian_toNat (b0 b1 b2 b3 : Byte) : (littleEndian b0 b1 b2 b3).toNat =
    b0.toNat + 2^8*b1.toNat + 2^16*b2.toNat + 2^24*b3.toNat := by
  simp only [littleEndian, BitVec.toNat_ofNat]
  omega

theorem byteOf_littleEndian (b : ℕ → Byte) (k : ℕ) (hk : k < 4) :
    byteOf (littleEndian (b 0) (b 1) (b 2) (b 3)) k = b k := by
  apply BitVec.eq_of_toNat_eq
  simp only [byteOf, littleEndian_toNat, BitVec.toNat_ofNat]
  have h0 := (b 0).isLt
  have h1 := (b 1).isLt
  have h2 := (b 2).isLt
  have h3 := (b 3).isLt
  interval_cases k <;> omega

theorem littleEndian_byteOf (w : Word) :
    littleEndian (byteOf w 0) (byteOf w 1) (byteOf w 2) (byteOf w 3) = w := by
  have hlt := w.isLt
  apply BitVec.eq_of_toNat_eq
  simp only [littleEndian_toNat, byteOf, BitVec.toNat_ofNat]
  omega

theorem littleEndian_injective (b c : ℕ → Byte)
    (h : littleEndian (b 0) (b 1) (b 2) (b 3) = littleEndian (c 0) (c 1) (c 2) (c 3))
    (k : ℕ) (hk : k < 4) : b k = c k := by
  rw [← byteOf_littleEndian b k hk, h, byteOf_littleEndian c k hk]

theorem shift_toNat (b : Byte) (k : ℕ) (hk : k ≤ 24) :
    (b.setWidth 32 <<< k).toNat = 2^k*b.toNat := by
  have hb := b.isLt
  have hp : 2^k ≤ 2^24 := Nat.pow_le_pow_right (by decide) hk
  rw [BitVec.toNat_shiftLeft, BitVec.toNat_setWidth_of_le (by decide), Nat.shiftLeft_eq, mul_comm]
  apply Nat.mod_eq_of_lt
  nlinarith

theorem assemble_bytes (a b c d : Byte) : a.setWidth 32 ||| b.setWidth 32 <<< 8 |||
    c.setWidth 32 <<< 16 ||| d.setWidth 32 <<< 24 = littleEndian a b c d := by
  have ha := a.isLt
  have hb := b.isLt
  have hc := c.isLt
  apply BitVec.eq_of_toNat_eq
  rw [littleEndian_toNat, BitVec.toNat_or, BitVec.toNat_or, BitVec.toNat_or,
    shift_toNat b 8 (by decide), shift_toNat c 16 (by decide), shift_toNat d 24 (by decide),
    BitVec.toNat_setWidth_of_le (by decide),
    Nat.or_comm a.toNat, ← Nat.two_pow_add_eq_or_of_lt ha,
    Nat.or_comm _ (2^16*c.toNat), ← Nat.two_pow_add_eq_or_of_lt (by omega),
    Nat.or_comm _ (2^24*d.toNat), ← Nat.two_pow_add_eq_or_of_lt (by omega)]
  omega

/-- The aligned block of `n` bytes around an address. -/
def block (n : ℕ) (a : Addr) : Set Addr := {x | x.toNat / n = a.toNat / n}

instance (n : ℕ) (a x : Addr) : Decidable (x ∈ block n a) :=
  inferInstanceAs (Decidable (x.toNat / n = a.toNat / n))

theorem mem_block {n : ℕ} {a x : Addr} : x ∈ block n a ↔ x.toNat / n = a.toNat / n := Iff.rfl

theorem readWord_eq_iff (m : Memory) (p : Addr) (i : ℕ) (w : Word) :
    readWord m (p + 4*BitVec.ofNat 32 i) = w ↔
      ∀ k < 4, m (p + BitVec.ofNat 32 (4*i+k)) = byteOf w k := by
  have hw := littleEndian_byteOf w
  rw [readWord_offset]
  constructor
  · intro h k hk
    rw [← hw] at h
    exact littleEndian_injective (fun k => m (p + BitVec.ofNat 32 (4*i+k))) (byteOf w) h k hk
  · intro h
    rw [← hw]
    exact congr (congr (congr (congrArg littleEndian (h 0 (by decide))) (h 1 (by decide)))
      (h 2 (by decide))) (h 3 (by decide))

theorem mem_page_offset {p x : Addr} (hp : p.toNat % 256 = 0) :
    x ∈ block 256 p ↔ ∃ i < 256, x = p + BitVec.ofNat 32 i := by
  have hpl := p.isLt
  have hxl := x.isLt
  rw [mem_block]
  constructor
  · intro h
    refine ⟨x.toNat % 256,Nat.mod_lt _ (by decide),BitVec.eq_of_toNat_eq ?_⟩
    rw [offset_toNat]
    omega
  · rintro ⟨i,hi,rfl⟩
    rw [offset_toNat]
    omega

/-- `m'` differs from `m` at most inside `T`. -/
def AgreeOff (T : Set Addr) (m m' : Memory) : Prop := ∀ x, x ∉ T → m' x = m x

def AgreeOn (T : Set Addr) (m m' : Memory) : Prop := ∀ x ∈ T, m' x = m x

theorem agreeOff_refl (T : Set Addr) (m : Memory) : AgreeOff T m m := fun _ _ => rfl

theorem agreeOff_trans {T : Set Addr} {m m' m'' : Memory} (h : AgreeOff T m m')
    (h' : AgreeOff T m' m'') : AgreeOff T m m'' :=
  fun x hx => (h' x hx).trans (h x hx)

theorem agreeOff_mono {T U : Set Addr} {m m' : Memory} (htu : T ⊆ U) (h : AgreeOff T m m') :
    AgreeOff U m m' :=
  fun x hx => h x (fun ht => hx (htu ht))

/-- Clearing the low `k` bits rounds an address down to a multiple of `2^k`. -/
theorem alignDown_toNat (a : Addr) (k : ℕ) :
    (a &&& ~~~BitVec.ofNat 32 (2^k-1)).toNat = a.toNat / 2^k * 2^k := by
  have ha : a &&& ~~~BitVec.ofNat 32 (2^k-1) = (a >>> k) <<< k := by
    apply BitVec.eq_of_getLsbD_eq
    intro i hi
    simp only [BitVec.getLsbD_and, BitVec.getLsbD_not, hi, BitVec.getLsbD_ofNat,
      BitVec.getLsbD_shiftLeft, BitVec.getLsbD_ushiftRight, Nat.testBit_two_pow_sub_one]
    by_cases h : i < k
    · simp [h]
    · simp [h, show k+(i-k) = i by omega]
  rw [ha, BitVec.toNat_shiftLeft, BitVec.toNat_ushiftRight, Nat.shiftLeft_eq, Nat.shiftRight_eq_div_pow]
  apply Nat.mod_eq_of_lt
  have := Nat.div_mul_le_self a.toNat (2^k)
  omega

end Swindle.WordMemory
