import Swindle.UsbHost

/-!
# The bootloader's own flash

The layout string promises that the first sectors are read-only. The handlers
compare with the end of the flash and with nothing else, so the region is safe
only from requests that do not name it.
-/

set_option autoImplicit false

namespace Swindle.BootRegion
open Swindle.WordMemory Swindle.FlashController Swindle.FlashOperations Swindle.DfuHandlers
open Swindle.FlashFrames Swindle.UsbDriver Swindle.StageTwo Swindle.UsbHost Swindle.MachineRuns

def bootSize : Addr := BitVec.ofNat 32 (flashBootldrSizeKb*1024)

/-- The bootloader through either alias of the flash. -/
def bootRegion : Set Addr := {x | x < bootSize ∨ x - 0x08000000 < bootSize}

theorem mem_bootRegion {x : Addr} : x ∈ bootRegion ↔
    x.toNat < 0x4000 ∨ 0x08000000 ≤ x.toNat ∧ x.toNat < 0x08004000 := by
  have hs : bootSize = 0x4000 := rfl
  simp only [bootRegion, hs, Set.mem_ofPred_eq]
  bv_omega

instance (x : Addr) : Decidable (x ∈ bootRegion) := inferInstanceAs (Decidable (_ ∨ _))

def ErasesBoot (data : Source) (len : BitVec 16) (d : Dfu) : Prop :=
  IsErasePage data len d ∧ sectorAddr (commandAddr data) ∈ bootRegion

/-- Some of the first `n` bytes from the write address on lie in the region. -/
def ReachesBoot (n : ℕ) (d : Dfu) : Prop :=
  ∃ i < n, writeAddr d + BitVec.ofNat 32 i ∈ bootRegion

def TargetsBoot (data : Source) (len : BitVec 16) (d : Dfu) : Prop :=
  ErasesBoot data len d ∨ IsBlock len d ∧ ReachesBoot len.toNat d

/-- The payload names an address of the bootloader and is not refused: an
ERASE_PAGE, or a block which, rounded up to the 256 bytes programmed at a time,
passes the comparison with the end. -/
def Trespasses (data : Source) (len : BitVec 16) (d : Dfu) : Prop :=
  ErasesBoot data len d ∨ Accepted len d ∧ ReachesBoot (rounded len) d

instance (n : ℕ) (d : Dfu) : Decidable (ReachesBoot n d) :=
  inferInstanceAs (Decidable (∃ i < n, _))

instance (data : Source) (len : BitVec 16) (d : Dfu) : Decidable (Trespasses data len d) :=
  inferInstanceAs (Decidable ((_ ∧ _) ∨ (_ ∧ _)))

theorem sector_erase_clear (a : Addr) (h : sectorAddr a ∉ bootRegion)
    (ha : sectorAddr a % 32768 = 0) :
    Disjoint (target (.blockErase (phys (sectorAddr a)))) bootRegion := by
  rw [Set.disjoint_left]
  intro x hx hb
  have hx : x.toNat / 32768 = (phys (sectorAddr a)).toNat / 32768 := hx
  have hp := phys_cases (sectorAddr a)
  have ha : (sectorAddr a).toNat % 32768 = 0 := by bv_omega
  rw [mem_bootRegion] at h hb
  omega

theorem page_erase_clear (a : Addr) (h : sectorAddr a ∉ bootRegion) (k : ℕ) (hk : k < 16) :
    Disjoint (target (.fastErase (phys (sectorAddr a + BitVec.ofNat 32 (256*k))))) bootRegion := by
  rw [Set.disjoint_left]
  intro x hx hb
  have hs := sectorAddr_toNat a
  have hn : (sectorAddr a + BitVec.ofNat 32 (256*k)).toNat = (sectorAddr a).toNat + 256*k := by
    have := a.isLt
    rw [BitVec.toNat_add, BitVec.toNat_ofNat]
    omega
  have hp := phys_cases (sectorAddr a + BitVec.ofNat 32 (256*k))
  have hx : x.toNat / 256 = (phys (sectorAddr a + BitVec.ofNat 32 (256*k))).toNat / 256 := hx
  rw [mem_bootRegion] at h hb
  omega

/-- A block that stays clear of the region after rounding changes none of it. -/
theorem block_clear (data : Source) {len : BitVec 16} {d : Dfu} (h : Accepted len d)
    (hn : ¬ ReachesBoot (rounded len) d) (op : Op) (hop : Commits data len d op) :
    Disjoint (target op) bootRegion := by
  rw [Set.disjoint_left]
  intro x hx hb
  obtain ⟨i,hi,hc⟩ := commits_covered h.1 hop hx
  apply hn
  refine ⟨i,hi,?_⟩
  rcases hc with hc | ⟨rfl,-⟩
  · rw [mem_bootRegion] at hb ⊢
    omega
  · exact hb

theorem commits_clear (data : Source) (len : BitVec 16) (d : Dfu) (h : ¬ Trespasses data len d)
    (op : Op) (hop : Commits data len d op) : Disjoint (target op) bootRegion := by
  cases hop with
  | sector he ha => exact sector_erase_clear _ (fun hb => h (Or.inl ⟨he,hb⟩)) ha
  | page he ha k hk => exact page_erase_clear _ (fun hb => h (Or.inl ⟨he,hb⟩)) k hk
  | rewrite hacc a ha =>
    exact block_clear data hacc (fun hb => h (Or.inr ⟨hacc,hb⟩)) _ (Commits.rewrite hacc a ha)
  | program hacc k hk src =>
    exact block_clear data hacc (fun hb => h (Or.inr ⟨hacc,hb⟩)) _ (Commits.program hacc k hk src)

theorem target_refused (hw : Controller) (data : Source) (len : BitVec 16) (d : Dfu) (f : Fmc)
    (h : ¬ Trespasses data len d) (ht : TargetsBoot data len d) :
    (dfuHandleData hw data len d f).1.state = .dfuError ∧
      (dfuHandleData hw data len d f).2 = f := by
  rcases ht with he | ⟨hb,i,hi,hbi⟩
  · exact absurd (Or.inl he) h
  · have hend : flashEnd < writeAddr d + len.setWidth 32 := by
      by_contra hend
      exact h (Or.inr ⟨⟨hb,hend⟩,i,by unfold rounded; omega,hbi⟩)
    rw [block_data hw data len d f hb, dfuWriteBlock, dif_pos hend]
    exact ⟨rfl,rfl⟩

/-- One turn of the loop leaves the bootloader alone: it commits operations
elsewhere only, and a payload that names the region ends in an error with the
flash as it was. -/
structure BootKept (b : Board) (e : Event) (s : Stage2) : Prop where
  commits : ∃ ops, (turn b e s).fmc.log = s.fmc.log ++ ops ∧
    ∀ op ∈ ops, Disjoint (target op) bootRegion
  refused : ∀ data len, handedOver b e s = some (data,len) → TargetsBoot data len s.dfu →
    (turn b e s).dfu.state = .dfuError ∧ (turn b e s).fmc.flash = s.fmc.flash

def BootHit (b : Board) (e : Event) (s : Stage2) : Prop :=
  match handedOver b e s with
  | some (data,len) => Trespasses data len s.dfu
  | none => False

instance (b : Board) (e : Event) (s : Stage2) : Decidable (BootHit b e s) :=
  match h : handedOver b e s with
  | some (data,len) => decidable_of_iff (Trespasses data len s.dfu) (by rw [BootHit, h])
  | none => isFalse (by rw [BootHit, h]; exact id)

theorem turn_boot_kept (b : Board) (e : Event) (s : Stage2) (hs : Settled s) (hi : Idle s.fmc)
    (h : ¬ BootHit b e s) : BootKept b e s := by
  have hclear : ∀ data len, handedOver b e s = some (data,len) → ¬ Trespasses data len s.dfu := by
    intro data len hh ht
    rw [BootHit, hh] at h
    exact h ht
  obtain ⟨ops,hp,hc⟩ := turn_commits b e s hi
  refine ⟨⟨ops,performs_log hp,fun op hop => ?_⟩,fun data len hh ht => ?_⟩
  · obtain ⟨data,len,hh,hcom⟩ := hc op hop
    exact commits_clear data len s.dfu (hclear data len hh) op hcom
  · obtain ⟨hd,hf⟩ := turn_handed b e s hs data len hh
    obtain ⟨he,hsame⟩ := target_refused b.hw data len s.dfu s.fmc (hclear data len hh) ht
    rw [hd, hf, hsame]
    exact ⟨he,rfl⟩

/-- The bootloader survives every run without a payload that trespasses. -/
theorem boot_region_kept (b : Board) (f : Fmc) (hf : Idle f) (ps : List Poll)
    (h : Along (loopTurn b) (fun p s => ¬ BootHit b p.event s) ps (boot f)) :
    Along (loopTurn b) (fun p s => BootKept b p.event s) ps (boot f) := by
  apply along_invariant (loopTurn b) _ (fun s => Settled s ∧ Idle s.fmc) _ _ _ ps _ h
    ⟨settled_boot f,hf⟩
  · rintro p s - ⟨hs,hi⟩
    exact ⟨settled_loop b p s hs,loop_idle_fmc b p s hi⟩
  · rintro p s hn ⟨hs,hi⟩
    exact turn_boot_kept b p.event s hs hi hn

def writeApplication : List Poll :=
  downloadPolls 0 [dfuseCmdSetAddress,0,0x40,0,0] ++ downloadPolls 2 [0xAA]

theorem write_application_kept : Along (loopTurn perfectBoard)
    (fun p s => BootKept perfectBoard p.event s) writeApplication (perfectBoot fun _ => 0xFF) :=
  boot_region_kept perfectBoard _ (IdealFlash.reset_idle _) writeApplication (by decide +kernel)

/-- ERASE_PAGE of the first sector, which erases the first 32 KB. -/
def eraseBootloader : List Poll := downloadPolls 0 [dfuseCmdErasePage,0,0,0,0]

theorem bootloader_erased : ¬ ∀ (b : Board) (f : Fmc), Idle f → ∀ ps : List Poll,
    Along (loopTurn b) (fun p s => BootKept b p.event s) ps (boot f) := by
  intro h
  obtain ⟨-,hk,-⟩ := h perfectBoard (IdealFlash.resetFmc fun _ => 0xFF) (IdealFlash.reset_idle _)
    eraseBootloader
  obtain ⟨ops,hl,hclear⟩ := hk.commits
  have hops : ops = [.blockErase 0x08000000] :=
    (List.append_cancel_left (hl.symm.trans (by decide +kernel)))
  have hd := hclear (.blockErase 0x08000000) (by simp [hops])
  exact Set.disjoint_left.mp hd (rfl : (0x08000000 : Addr) ∈ block 32768 0x08000000)
    (by decide)

end Swindle.BootRegion
