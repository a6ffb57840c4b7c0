import Mathlib

/-!
# Known bits

What is known of a word is the bits that are certainly set and those that are
certainly clear. Masks are applied to that knowledge as they are to the word.
-/

set_option autoImplicit false

namespace Swindle.KnownBits

structure Known (n : ℕ) where
  ones : BitVec n
  zeros : BitVec n
  deriving DecidableEq, Repr

namespace Known
variable {n : ℕ}

def Of (k : Known n) (x : BitVec n) : Prop :=
  ∀ i, (k.ones.getLsbD i = true → x.getLsbD i = true) ∧
    (k.zeros.getLsbD i = true → x.getLsbD i = false)

def nothing : Known n := ⟨0,0⟩

def exactly (v : BitVec n) : Known n := ⟨v,~~~v⟩

def and (k : Known n) (m : BitVec n) : Known n := ⟨k.ones &&& m,k.zeros ||| ~~~m⟩

def or (k : Known n) (v : BitVec n) : Known n := ⟨k.ones ||| v,k.zeros &&& ~~~v⟩

/-- The bits of the mask are those of `old`, the others those of `new`. -/
def kept (mask : BitVec n) (new old : Known n) : Known n :=
  ⟨(new.ones &&& ~~~mask) ||| (old.ones &&& mask),(new.zeros &&& ~~~mask) ||| (old.zeros &&& mask)⟩

/-- What is learned from `x &&& m = v`. -/
def masked (k : Known n) (m v : BitVec n) : Known n :=
  ⟨k.ones ||| (m &&& v),k.zeros ||| (m &&& ~~~v)⟩

/-- What is learned from `x &&& m ≠ 0`, if the mask has a single bit. -/
def nonzero (k : Known n) (m : BitVec n) : Known n :=
  if m = BitVec.twoPow n m.toNat.log2 then ⟨k.ones ||| m,k.zeros⟩ else k

def forget (k : Known n) (a b : BitVec n) : Known n := ⟨k.ones &&& ~~~a,k.zeros &&& ~~~b⟩

def excludes (k : Known n) (m v : BitVec n) : Bool :=
  decide ((k.ones &&& m &&& ~~~v) ||| (k.zeros &&& m &&& v) ≠ 0)

def implies (k : Known n) (m v : BitVec n) : Bool :=
  decide (m &&& v &&& ~~~k.ones = 0 ∧ m &&& ~~~v &&& ~~~k.zeros = 0 ∧ ~~~m &&& v = 0)

theorem of_nothing (x : BitVec n) : (nothing : Known n).Of x := fun i => by simp [nothing]

theorem of_exactly (v : BitVec n) : (exactly v).Of v := by
  intro i
  simp only [exactly, BitVec.getLsbD_not]
  grind

theorem Of.and {k : Known n} {x : BitVec n} (h : k.Of x) (m : BitVec n) : (k.and m).Of (x &&& m) := by
  intro i
  have hi := h i
  have hx := @BitVec.getLsbD_of_ge n x i
  simp only [Known.and, BitVec.getLsbD_and, BitVec.getLsbD_or, BitVec.getLsbD_not] at *
  grind

theorem Of.or {k : Known n} {x : BitVec n} (h : k.Of x) (v : BitVec n) : (k.or v).Of (x ||| v) := by
  intro i
  have hi := h i
  have hz := @BitVec.getLsbD_of_ge n v i
  have hk := @BitVec.getLsbD_of_ge n k.zeros i
  simp only [Known.or, BitVec.getLsbD_and, BitVec.getLsbD_or, BitVec.getLsbD_not] at *
  grind

theorem Of.kept {new old : Known n} {x y : BitVec n} (hx : new.Of x) (hy : old.Of y)
    (mask : BitVec n) : (Known.kept mask new old).Of ((x &&& ~~~mask) ||| (y &&& mask)) := by
  intro i
  have hi := hx i
  have hj := hy i
  have hm := @BitVec.getLsbD_of_ge n mask i
  simp only [Known.kept, BitVec.getLsbD_and, BitVec.getLsbD_or, BitVec.getLsbD_not] at *
  grind

theorem Of.masked {k : Known n} {x : BitVec n} (h : k.Of x) (m v : BitVec n) (hx : x &&& m = v) :
    (k.masked m v).Of x := by
  intro i
  have hi := h i
  have hbit : (x.getLsbD i && m.getLsbD i) = v.getLsbD i := by rw [← BitVec.getLsbD_and, hx]
  simp only [Known.masked, BitVec.getLsbD_and, BitVec.getLsbD_or, BitVec.getLsbD_not] at *
  grind

theorem Of.nonzero {k : Known n} {x : BitVec n} (h : k.Of x) (m : BitVec n) (hx : x &&& m ≠ 0) :
    (k.nonzero m).Of x := by
  rw [Known.nonzero]
  split
  · next hm =>
    intro i
    have hi := h i
    rw [hm, BitVec.and_twoPow] at hx
    have hbit : x.getLsbD m.toNat.log2 = true := by
      by_contra hclear
      exact hx (if_neg hclear)
    rw [hm, BitVec.getLsbD_or, BitVec.getLsbD_twoPow]
    simp only [Bool.or_eq_true, Bool.and_eq_true, decide_eq_true_eq]
    grind
  · exact h

theorem Of.forget {k : Known n} {x : BitVec n} (h : k.Of x) (a b : BitVec n) :
    (k.forget a b).Of x := by
  intro i
  have hi := h i
  simp only [Known.forget, BitVec.getLsbD_and, BitVec.getLsbD_not] at *
  grind

theorem Of.excluded {k : Known n} {x : BitVec n} (h : k.Of x) (m v : BitVec n)
    (he : k.excludes m v = true) : x &&& m ≠ v := by
  intro hx
  apply of_decide_eq_true he
  apply BitVec.eq_of_getLsbD_eq
  intro i _
  have hi := h i
  have hbit : (x.getLsbD i && m.getLsbD i) = v.getLsbD i := by rw [← BitVec.getLsbD_and, hx]
  simp only [BitVec.getLsbD_and, BitVec.getLsbD_or, BitVec.getLsbD_not] at *
  grind

theorem Of.implied {k : Known n} {x : BitVec n} (h : k.Of x) (m v : BitVec n)
    (hk : k.implies m v = true) : x &&& m = v := by
  obtain ⟨hone,hzero,hout⟩ := of_decide_eq_true hk
  apply BitVec.eq_of_getLsbD_eq
  intro i hin
  have hi := h i
  have h1 := congrArg (BitVec.getLsbD · i) hone
  have h2 := congrArg (BitVec.getLsbD · i) hzero
  have h3 := congrArg (BitVec.getLsbD · i) hout
  simp only [BitVec.getLsbD_and, BitVec.getLsbD_not] at *
  grind

theorem Of.pinned {k : Known n} {x : BitVec n} (h : k.Of x) (v : BitVec n)
    (hk : k.implies (BitVec.allOnes n) v = true) : x = v := by
  have hx := h.implied _ v hk
  rwa [BitVec.and_allOnes] at hx

end Known

end Swindle.KnownBits
