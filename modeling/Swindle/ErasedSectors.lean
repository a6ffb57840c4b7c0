import Swindle.SectorErase

/-!
# What a sector erase that reports OK has left behind

The page path reads every page back, and the check that finds a sector erased
already has just read it. The block path believes the end flag, so it is sound
only for controllers whose end flag is.
-/

set_option autoImplicit false

namespace Swindle.ErasedSectors
open Swindle.WordMemory Swindle.FlashController Swindle.FlashOperations Swindle.DfuHandlers
open Swindle.FlashFrames Swindle.IdealFlash Swindle.UsbHost Swindle.SectorErase

def SectorErased (m : Memory) (addr : Addr) : Prop :=
  ∀ i < 1024, readWord m (phys (sectorAddr addr) + 4*BitVec.ofNat 32 i) = erasedWord

theorem below_last {addr : Addr} (h : addr < flashEnd) : addr < 0xFFFFF000 :=
  BitVec.lt_trans h (by decide)

/-- The end of the last sector of the address space is 0, so no page is visited there. -/
theorem sector_pages (addr : Addr) (ha : addr < 0xFFFFF000) (c : Addr) :
    c ∈ pages (sectorAddr addr) (sectorAddr addr + dfuSectorSize) (sectorEnd_le addr) ↔
      c ∈ pagesFrom (sectorAddr addr) 16 := by
  have hs := sectorAddr_toNat addr
  have hlim : (sectorAddr addr + dfuSectorSize).toNat = (sectorAddr addr).toNat + 4096 := by
    rw [show dfuSectorSize = 4096 from rfl]
    bv_omega
  exact mem_pages_from (sectorEnd_le addr) (by omega) (by omega) c

theorem sector_erased_iff (m : Memory) (addr : Addr) (ha : addr < 0xFFFFF000) :
    sectorIsErased m (sectorAddr addr) (sectorEnd_le addr) = true ↔ SectorErased m addr := by
  have hs := sectorAddr_toNat addr
  have hword : ∀ k i, k < 16 → phys (sectorAddr addr + BitVec.ofNat 32 (256*k)) +
      4*BitVec.ofNat 32 i = phys (sectorAddr addr) + 4*BitVec.ofNat 32 (64*k+i) := by
    intro k i hk
    have hpk := phys_offset (sectorAddr addr) (256*k) (by omega) (by omega)
    have hphys : phys (sectorAddr addr + BitVec.ofNat 32 (256*k)) =
        phys (sectorAddr addr) + BitVec.ofNat 32 (256*k) := by
      rw [← BitVec.toNat_inj, offset_toNat, hpk]
      omega
    have h4 : ∀ n, (4 : Addr)*BitVec.ofNat 32 n = BitVec.ofNat 32 (4*n) :=
      fun n => (BitVec.ofNat_mul 4 n).symm
    rw [hphys, h4, h4, offset_offset]
    congr 2
    omega
  simp only [sectorIsErased, List.all_eq_true, sector_pages addr ha, fmcPageIsErased, erasedWords,
    List.mem_range, beq_iff_eq]
  constructor
  · intro h i hi
    have hpage := h _ (mem_pagesFrom.mpr ⟨i/64,by omega,rfl⟩) (i%64) (Nat.mod_lt i (by decide))
    rw [hword _ _ (by omega), show 64*(i/64) + i%64 = i by omega] at hpage
    exact hpage
  · intro h c hc i hi
    obtain ⟨k,hk,rfl⟩ := mem_pagesFrom.mp hc
    rw [hword k i hk]
    exact h _ (by omega)

theorem pages_erased_iff (m : Memory) (addr : Addr) (ha : addr < 0xFFFFF000) :
    sectorIsErased m (sectorAddr addr) (sectorEnd_le addr) = true ↔
      Erased (pageSet (pagesFrom (sectorAddr addr) 16)) m := by
  have hs := sectorAddr_toNat addr
  have halign : ∀ c ∈ pagesFrom (sectorAddr addr) 16, c.toNat % 256 = 0 := by
    intro c hc
    obtain ⟨k,-,rfl⟩ := mem_pagesFrom.mp hc
    rw [offset_toNat]
    omega
  simp only [sectorIsErased, List.all_eq_true, sector_pages addr ha]
  constructor
  · rintro h x ⟨c,hc,hx⟩
    exact (page_is_erased_iff c (halign c hc) m).mp (h c hc) x hx
  · intro h c hc
    exact (page_is_erased_iff c (halign c hc) m).mpr (fun x hx => h x ⟨c,hc,hx⟩)

/-! ## The page path -/

theorem range_frame {hw : Controller} (hl : LocalErase hw) (n : ℕ) (a : Addr) (f : Fmc)
    (h : Idle f) :
    AgreeOff (pageSet (pagesFrom a n)) f.flash (fmcErasePages hw n a f).2.flash := by
  obtain ⟨done,hs,hp⟩ := erase_range_performs hw n a f h
  apply performs_frame hp
  intro op hop log m
  obtain ⟨c,hc,rfl⟩ := List.mem_map.mp hop
  exact agreeOff_mono (fun x hx => ⟨c,hs.subset hc,hx⟩) (hl.page log _ m)

/-- Every page was read back when it was erased, and later pages are apart from it. -/
theorem range_erased {hw : Controller} (hl : LocalErase hw) (n : ℕ) (a : Addr) (f : Fmc)
    (h : Idle f) (ha : a.toNat % 256 = 0)
    (hd : (pagesFrom a n).Pairwise fun p q => Disjoint (block 256 (phys p)) (block 256 (phys q)))
    (hok : (fmcErasePages hw n a f).1 = true) :
    Erased (pageSet (pagesFrom a n)) (fmcErasePages hw n a f).2.flash := by
  induction n generalizing a f with
  | zero =>
    rintro x ⟨c,hc,-⟩
    cases hc
  | succ n ih =>
    rw [pagesFrom, List.pairwise_cons] at hd
    have hi := (erase_page_performs hw a f h.quiet).idle
    simp only [fmcErasePages] at hok ⊢
    split_ifs at hok with hpage
    rw [if_pos hpage]
    have hread := hpage
    rw [erase_page_result hw a f h.quiet, Bool.and_eq_true] at hread
    have herased := (page_is_erased_iff a ha _).mp hread.2
    have hframe := range_frame hl n (a + 256) _ hi
    rintro x ⟨c,hc,hx⟩
    rcases List.mem_cons.mp hc with rfl | hc
    · have hout : x ∉ pageSet (pagesFrom (c + 256) n) := by
        rintro ⟨q,hq,hxq⟩
        exact Set.disjoint_left.mp (hd.1 q hq) hx hxq
      rw [hframe x hout]
      exact herased x hx
    · exact ih (a + 256) _ hi (by bv_omega) hd.2 hok x ⟨c,hc,hx⟩

theorem sector_disjoint_pages (addr : Addr) : (pagesFrom (sectorAddr addr) 16).Pairwise
    fun p q => Disjoint (block 256 (phys p)) (block 256 (phys q)) := by
  have hs := sectorAddr_toNat addr
  exact shifted_disjoint fun k hk => phys_offset (sectorAddr addr) (256*k) (by omega) (by omega)

/-! ## The command -/

/-- Whatever a controller with local erases answers, an erase command that ends
with status OK leaves its sector erased. -/
def ReportSound (data : Source) (len : BitVec 16) (d : Dfu) (f : Fmc) : Prop :=
  ∀ hw, LocalErase hw → (dfuHandleData hw data len d f).1.status = .ok →
    SectorErased (dfuHandleData hw data len d f).2.flash (commandAddr data)

def lazy : Controller := fun _ _ m => (m,⟨false,false,true⟩)

theorem lazy_local : LocalErase lazy :=
  ⟨fun _ _ m => agreeOff_refl _ m,fun _ _ m => agreeOff_refl _ m⟩

section Command
variable (addr : Addr) (d : Dfu) (f : Fmc) (hi : Idle f)
include hi

theorem local_report (ha : addr < 0xFFFFF000) {hw : Controller} (hl : LocalErase hw)
    (hs : StaysLocal f.flash addr) (hok : (dfuErasePage hw addr d f).1.status = .ok) :
    SectorErased (dfuErasePage hw addr d f).2.flash addr := by
  have hsec := sectorAddr_toNat addr
  simp only [dfuErasePage, eraseSector] at hok ⊢
  split_ifs at hok ⊢ with h1 h2 h3 h3
  · exact (sector_erased_iff f.flash addr ha).mp h1
  · exact absurd h2 (hs.resolve_right h1)
  · exact absurd hok (by simp [Dfu.fail])
  · have herased := range_erased hl 16 (sectorAddr addr) f hi (by omega) (sector_disjoint_pages addr) h3
    exact (sector_erased_iff _ addr ha).mp ((pages_erased_iff _ addr ha).mpr herased)
  · exact absurd hok (by simp [Dfu.fail])

theorem lazy_report (hs : ¬ StaysLocal f.flash addr) :
    (dfuErasePage lazy addr d f).1.status = .ok ∧
      (dfuErasePage lazy addr d f).2.flash = f.flash := by
  simp only [StaysLocal, not_or, not_not] at hs
  obtain ⟨h32,hne⟩ := hs
  have hr : (fmcErase32k lazy (sectorAddr addr) f).1 = true := erase_32k_result lazy _ f hi.quiet
  have hf := performs_flash (erase_32k_performs lazy (sectorAddr addr) f hi.quiet)
  simp only [dfuErasePage, eraseSector, if_neg hne, if_pos h32, if_pos hr]
  exact ⟨rfl,hf⟩

end Command

/-- The report is sound for every such controller exactly where the block path
is not taken: the sector does not start a 32 KB block, or is erased already. -/
theorem report_sound_iff (data : Source) (len : BitVec 16) (d : Dfu) (f : Fmc) (hi : Idle f)
    (he : IsErasePage data len d) (ha : commandAddr data < flashEnd) :
    ReportSound data len d f ↔ sectorAddr (commandAddr data) % 32768 ≠ 0 ∨
      SectorErased f.flash (commandAddr data) := by
  have hlocal : StaysLocal f.flash (commandAddr data) ↔
      sectorAddr (commandAddr data) % 32768 ≠ 0 ∨ SectorErased f.flash (commandAddr data) :=
    or_congr_right (sector_erased_iff f.flash _ (below_last ha))
  rw [← hlocal]
  simp only [ReportSound, erase_page_data _ data len d f he]
  constructor
  · intro h
    by_contra hs
    obtain ⟨hok,hflash⟩ := lazy_report _ d f hi hs
    have hread := h lazy lazy_local hok
    rw [hflash] at hread
    exact hs (Or.inr ((sector_erased_iff f.flash _ (below_last ha)).mpr hread))
  · intro hs hw hl hok
    exact local_report _ d f hi (below_last ha) hl hs hok

/-- ERASE_PAGE 0x5000, in the middle of a 32 KB block. -/
theorem erase5000_report_sound :
    ReportSound ⟨0x20000000,bytesAt erase5000⟩ 5 Dfu.init
      (resetFmc fun _ => 0xFF) :=
  (report_sound_iff ⟨0x20000000,bytesAt erase5000⟩ 5 Dfu.init _ (reset_idle _)
    (by decide) (by decide)).mpr (Or.inl (by decide))

/-- ERASE_PAGE 0x8000 over a flash that is not erased, when nothing is erased at all. -/
theorem erase8000_report_unsound :
    ¬ ReportSound ⟨0x20000000,bytesAt [dfuseCmdErasePage,0,0x80,0,0]⟩ 5 Dfu.init
      (resetFmc fun _ => 0xFF) := by
  intro h
  have hread := h lazy lazy_local (by decide +kernel) 0 (by decide)
  exact absurd hread (by decide +kernel)

end Swindle.ErasedSectors
