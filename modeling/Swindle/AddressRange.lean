import Swindle.IdealFlash

/-!
# The address range

A block is compared with the end of the flash in 32-bit arithmetic, an erased
sector with nothing. So a block is refused when it ends behind the flash, unless
its end wraps to an address that passes, and a sector never is.
-/

set_option autoImplicit false

namespace Swindle.AddressRange
open Swindle.WordMemory Swindle.FlashController Swindle.FlashOperations Swindle.DfuHandlers
open Swindle.FlashFrames Swindle.IdealFlash

/-- Where a block ends, in unbounded arithmetic. -/
def blockEnd (len : BitVec 16) (d : Dfu) : ℕ :=
  d.dfuAddress.toNat + (d.dfuBlockNum.toNat - 2)*4096 + len.toNat

def sectorEnd (data : Source) : ℕ := (sectorAddr (commandAddr data)).toNat + 4096

def Outside (data : Source) (len : BitVec 16) (d : Dfu) : Prop :=
  IsErasePage data len d ∧ flashEnd.toNat < sectorEnd data ∨
    IsBlock len d ∧ flashEnd.toNat < blockEnd len d

/-- The payloads outside that no comparison stops: every sector, and the
blocks whose end wraps to at most the end of the flash. -/
def Missed (data : Source) (len : BitVec 16) (d : Dfu) : Prop :=
  IsErasePage data len d ∧ flashEnd.toNat < sectorEnd data ∨
    IsBlock len d ∧ 2^32 ≤ blockEnd len d ∧ blockEnd len d ≤ 2^32 + flashEnd.toNat

instance (data : Source) (len : BitVec 16) (d : Dfu) : Decidable (Outside data len d) :=
  inferInstanceAs (Decidable (_ ∨ _))

instance (data : Source) (len : BitVec 16) (d : Dfu) : Decidable (Missed data len d) :=
  inferInstanceAs (Decidable (_ ∨ _))

def InFlash (a : Addr) : Prop :=
  0x08000000 ≤ a.toNat ∧ a.toNat < 0x08000000 + flashEnd.toNat

def StartsInside : Op → Prop
  | .fastErase a => InFlash a
  | .blockErase a => InFlash a
  | .fastProgram words => ∃ aw ∈ words.head?, InFlash aw.1
  | .undefined _ => False

/-- What the device owes to a payload: one that is outside is refused, whatever
the flash holds, with nothing changed, and no operation starts outside the flash. -/
structure RangeChecked (hw : Controller) (data : Source) (len : BitVec 16) (d : Dfu) (f : Fmc) :
    Prop where
  refused : Outside data len d → dfuHandleData hw data len d f = (d.fail .errAddress, f)
  inside : Idle f → ∃ ops, Performs hw ops f (dfuHandleData hw data len d f).2 ∧
    ∀ op ∈ ops, StartsInside op

theorem end_toNat (len : BitVec 16) (d : Dfu) (h : 2 ≤ d.dfuBlockNum) :
    (writeAddr d + len.setWidth 32).toNat = blockEnd len d % 2^32 := by
  have hw := writeAddr_toNat d h
  have hl : (len.setWidth 32).toNat = len.toNat := BitVec.toNat_setWidth_of_le (by decide)
  rw [BitVec.toNat_add, hw, hl, blockEnd]
  omega

theorem flashEnd_toNat : flashEnd.toNat = 0x40000 := rfl

theorem block_refused (hw : Controller) (data : Source) (len : BitVec 16) (d : Dfu) (f : Fmc)
    (hb : IsBlock len d) (h : flashEnd < writeAddr d + len.setWidth 32) :
    dfuHandleData hw data len d f = (d.fail .errAddress, f) := by
  rw [block_data hw data len d f hb]
  simp only [dfuWriteBlock, dif_pos h]

theorem block_not_refused (hw : Controller) (data : Source) (len : BitVec 16) (d : Dfu) (f : Fmc)
    (hb : IsBlock len d) (h : ¬ flashEnd < writeAddr d + len.setWidth 32) :
    (dfuHandleData hw data len d f).1.status ≠ .errAddress := by
  rw [block_data hw data len d f hb]
  simp only [dfuWriteBlock, dif_neg h]
  split_ifs <;> simp [Dfu.fail, Dfu.done]

theorem erase_not_refused (hw : Controller) (data : Source) (len : BitVec 16) (d : Dfu) (f : Fmc)
    (he : IsErasePage data len d) : (dfuHandleData hw data len d f).1.status ≠ .errAddress := by
  rw [erase_page_data hw data len d f he]
  simp only [dfuErasePage]
  split_ifs <;> simp [Dfu.fail, Dfu.done]

section Range
variable (data : Source) (len : BitVec 16) (d : Dfu)

/-- The comparison misses an end behind the flash only where it wraps. -/
theorem accepted_end (hn : d.dfuBlockNum.toNat < 65536) (h : Accepted len d) :
    blockEnd len d ≤ flashEnd.toNat ∨ Missed data len d := by
  have he := end_toNat len d h.1.1
  have hle : (writeAddr d + len.setWidth 32).toNat ≤ flashEnd.toNat := Nat.le_of_not_lt h.2
  have ha := d.dfuAddress.isLt
  have hl := len.isLt
  have hf := flashEnd_toNat
  rw [he] at hle
  by_cases hin : blockEnd len d ≤ flashEnd.toNat
  · exact Or.inl hin
  · refine Or.inr (Or.inr ⟨h.1,?_,?_⟩)
    all_goals
      unfold blockEnd at *
      omega

theorem missed_outside (h : Missed data len d) : Outside data len d := by
  have hf := flashEnd_toNat
  rcases h with h | ⟨hb,h,-⟩
  · exact Or.inl h
  · exact Or.inr ⟨hb,by omega⟩

theorem missed_not_refused (hw : Controller) (f : Fmc) (h : Missed data len d) :
    (dfuHandleData hw data len d f).1.status ≠ .errAddress := by
  rcases h with ⟨he,-⟩ | ⟨hb,hlo,hhi⟩
  · exact erase_not_refused hw data len d f he
  · apply block_not_refused hw data len d f hb
    have hf := flashEnd_toNat
    rw [BitVec.lt_def, end_toNat len d hb.1]
    omega

theorem commits_inside (hn : d.dfuBlockNum.toNat < 65536) (h : ¬ Missed data len d) {op : Op}
    (hop : Commits data len d op) : StartsInside op := by
  have hf := flashEnd_toNat
  have hsector : IsErasePage data len d → (sectorAddr (commandAddr data)).toNat + 4096 ≤
      flashEnd.toNat := fun he => Nat.le_of_not_lt fun hlt => h (Or.inl ⟨he,hlt⟩)
  have hblock : Accepted len d → (writeAddr d).toNat + len.toNat ≤ flashEnd.toNat := by
    intro hacc
    have hend := (accepted_end data len d hn hacc).resolve_right h
    have hw := writeAddr_toNat d hacc.1.1
    unfold blockEnd at hend
    omega
  cases hop with
  | sector he =>
    have hs := hsector he
    have hp := phys_toNat (sectorAddr (commandAddr data)) (by omega)
    exact ⟨by omega,by omega⟩
  | page he ha k hk =>
    have hs := hsector he
    have ho := offset_toNat (sectorAddr (commandAddr data)) (256*k)
    have hp := phys_toNat (sectorAddr (commandAddr data) + BitVec.ofNat 32 (256*k)) (by omega)
    exact ⟨by omega,by omega⟩
  | rewrite hacc a ha =>
    have hb := hblock hacc
    obtain ⟨-,-,hlt⟩ := mem_pages.mp ha
    have hlim : a.toNat < flashEnd.toNat := by bv_omega
    have hp := phys_toNat a (by omega)
    exact ⟨by omega,by omega⟩
  | program hacc k hk src =>
    have hb := hblock hacc
    have ho := offset_toNat (writeAddr d) (256*k)
    have hp := phys_toNat (writeAddr d + BitVec.ofNat 32 (256*k)) (by omega)
    refine ⟨(phys (writeAddr d + BitVec.ofNat 32 (256*k)) + 4*BitVec.ofNat 32 0,_),rfl,?_⟩
    simp only [BitVec.ofNat_eq_ofNat, BitVec.mul_zero, BitVec.add_zero]
    exact ⟨by omega,by omega⟩

end Range

/-- A payload is range checked unless it is one that the comparison misses. -/
theorem range_checked_iff (hw : Controller) (data : Source) (len : BitVec 16) (d : Dfu) (f : Fmc)
    (hn : d.dfuBlockNum.toNat < 65536) :
    RangeChecked hw data len d f ↔ ¬ Missed data len d := by
  constructor
  · intro h hm
    have hr := h.refused (missed_outside data len d hm)
    apply missed_not_refused data len d hw f hm
    rw [hr]
    rfl
  · intro hm
    refine ⟨fun ho => ?_,fun hi => ?_⟩
    · rcases ho with he | ⟨hb,hlt⟩
      · exact absurd (Or.inl he) hm
      · apply block_refused hw data len d f hb
        by_contra hacc
        rcases accepted_end data len d hn ⟨hb,hacc⟩ with hle | hmiss
        · omega
        · exact hm hmiss
    · obtain ⟨ops,hp,hc⟩ := data_commits hw data len d f hi
      exact ⟨ops,hp,fun op hop => commits_inside data len d hn hm (hc op hop)⟩

/-- A block in the middle of the flash is range checked. -/
theorem block_range_checked : RangeChecked perfect ⟨0x20000000,fun _ => 0⟩ 256
    ⟨.dfuDnloadSync,.ok,0x4000,2⟩ (resetFmc fun _ => 0xFF) :=
  (range_checked_iff perfect _ 256 ⟨.dfuDnloadSync,.ok,0x4000,2⟩ _ (by decide)).mpr (by decide)

/-- A block of 256 bytes at 0xFFFFFF00, whose end wraps to zero, is programmed. -/
theorem wrapped_block_programmed : ¬ ∀ (hw : Controller) (data : Source) (len : BitVec 16)
    (d : Dfu) (f : Fmc), d.dfuBlockNum.toNat < 65536 → RangeChecked hw data len d f := by
  intro h
  have hr := (h perfect ⟨0x20000000,fun _ => 0⟩ 256 ⟨.dfuDnloadSync,.ok,0xFFFFFF00,2⟩
    (resetFmc fun _ => 0xFF) (by decide)).refused (by decide)
  have hs := missed_not_refused ⟨0x20000000,fun _ => 0⟩ 256 ⟨.dfuDnloadSync,.ok,0xFFFFFF00,2⟩
    perfect (resetFmc fun _ => 0xFF) (by decide)
  rw [hr] at hs
  exact hs rfl

end Swindle.AddressRange
