import Swindle.AddressRange
import Swindle.StoringFlash

/-!
# The frame of a block write

Erasing works on the pages that the payload meets, programming on 256 bytes at
a time from where it starts. The two agree when the payload starts on a page or
its last piece reaches into the last page that the programming touches.
-/

set_option autoImplicit false

namespace Swindle.BlockFrame
open Swindle.WordMemory Swindle.FlashController Swindle.FlashOperations Swindle.DfuHandlers
open Swindle.FlashFrames Swindle.IdealFlash Swindle.FlashProgress Swindle.StoringFlash
open Swindle.AddressRange

/-- A block write stays in the pages of its payload, and programs into erased
pages only. -/
structure Framed (hw : Controller) (data : Source) (len : BitVec 16) (d : Dfu) (f : Fmc) :
    Prop where
  pages : AgreeOff (coveredPages (writeAddr d) len.toNat) f.flash
    (dfuHandleData hw data len d f).2.flash
  above : ∀ x : Addr, 0x08000000 + flashEnd.toNat ≤ x.toNat →
    (dfuHandleData hw data len d f).2.flash x = f.flash x
  programs : ∃ g erases blocks, Performs hw erases f g ∧
    Performs hw blocks g (dfuHandleData hw data len d f).2 ∧
    (∀ op ∈ erases, ∃ a, op = .fastErase a) ∧
    ∀ op ∈ blocks, ∀ x ∈ target op, Erased (block 256 x) g.flash

/-- The last page that is programmed is one that the payload meets. -/
def Fits (wa : Addr) (len : BitVec 16) : Prop :=
  wa.toNat % 256 = 0 ∨ 256 < wa.toNat % 256 + ((len.toNat-1) % 256 + 1)

instance (wa : Addr) (len : BitVec 16) : Decidable (Fits wa len) :=
  inferInstanceAs (Decidable (_ ∨ _))

section Block
variable {len : BitVec 16} {d : Dfu} (hb : IsBlock len d)
  (hin : blockEnd len d ≤ flashEnd.toNat)
include hb hin

theorem inside_end : (writeAddr d).toNat + len.toNat ≤ 0x40000 := by
  have hw := writeAddr_toNat d hb.1
  have hf := flashEnd_toNat
  unfold blockEnd at hin
  omega

theorem inside_accepted : Accepted len d := by
  refine ⟨hb,?_⟩
  have he := end_toNat len d hb.1
  have hf := flashEnd_toNat
  rw [BitVec.lt_def, he]
  omega

theorem covered_pages :
    pageSet (pages (pageAddr (writeAddr d)) (writeAddr d + len.setWidth 32)
      (flashEnd_le (inside_accepted hb hin).2)) = coveredPages (writeAddr d) len.toNat :=
  rewrite_covered_pages _ len hb.2 (inside_end hb hin) _

theorem program_covered_pages (hfit : Fits (writeAddr d) len) {k : ℕ}
    (hk : k < (len.toNat+255)/256) (src : Source) :
    target (.fastProgram (blockWords (phys (writeAddr d + BitVec.ofNat 32 (256*k))) src)) ⊆
      coveredPages (writeAddr d) len.toNat := by
  intro x hx
  have hend := inside_end hb hin
  have hpos : 0 < len.toNat := hb.2
  have ho := offset_toNat (writeAddr d) (256*k)
  have hp := phys_toNat (writeAddr d + BitVec.ofNat 32 (256*k)) (by omega)
  rw [block_target] at hx
  have hxlo : (phys (writeAddr d + BitVec.ofNat 32 (256*k))).toNat ≤ x.toNat ∧
      x.toNat < (phys (writeAddr d + BitVec.ofNat 32 (256*k))).toNat + 256 := by
    bv_omega
  rw [mem_covered hend hpos]
  unfold Fits at hfit
  omega

theorem erase_ops_framed {hw : Controller} (hs : Storing hw) {done : List Addr}
    (hsub : ∀ a ∈ done, a ∈ pages (pageAddr (writeAddr d)) (writeAddr d + len.setWidth 32)
      (flashEnd_le (inside_accepted hb hin).2)) :
    ∀ op ∈ eraseOps done, target op ⊆ coveredPages (writeAddr d) len.toNat ∧
      ∀ log m, AgreeOff (target op) m (hw log op m).1 := by
  intro op hop
  obtain ⟨a,ha,rfl⟩ := List.mem_map.mp hop
  refine ⟨fun x hx => ?_,fun log m => ?_⟩
  · rw [← covered_pages hb hin]
    exact ⟨a,hsub a ha,hx⟩
  · rw [hs.erase]
    exact fill_frame (block 256 (phys a)) m

theorem write_ops_framed {hw : Controller} (hs : Storing hw) (hfit : Fits (writeAddr d) len)
    {n : ℕ} (hn : n ≤ (len.toNat+255)/256) (data : Source) :
    ∀ op ∈ writeOps n (writeAddr d) data, target op ⊆ coveredPages (writeAddr d) len.toNat ∧
      ∀ log m, AgreeOff (target op) m (hw log op m).1 := by
  intro op hop
  obtain ⟨k,hk,src,rfl⟩ := mem_writeOps hop
  refine ⟨program_covered_pages hb hin hfit (by omega) src,fun log m => ?_⟩
  rw [hs.program]
  exact storeAll_frame _ m

theorem write_framed {hw : Controller} (hs : Storing hw) (hfit : Fits (writeAddr d) len)
    (data : Source) (f : Fmc) (hi : Idle f) : ∃ g erases blocks, Performs hw erases f g ∧
      Performs hw blocks g (dfuHandleData hw data len d f).2 ∧
      (∀ op ∈ erases, ∃ a, op = .fastErase a) ∧
      (∀ op ∈ erases ++ blocks, target op ⊆ coveredPages (writeAddr d) len.toNat ∧
        ∀ log m, AgreeOff (target op) m (hw log op m).1) ∧
      (blocks ≠ [] → Erased (coveredPages (writeAddr d) len.toNat) g.flash) := by
  have hacc := inside_accepted hb hin
  obtain ⟨done,hsub,hp⟩ := erase_pages_performs hw (pages (pageAddr (writeAddr d))
    (writeAddr d + len.setWidth 32) (flashEnd_le hacc.2)) f hi
  have hkind : ∀ op ∈ eraseOps done, ∃ a, op = .fastErase a := by
    intro op hop
    obtain ⟨a,-,rfl⟩ := List.mem_map.mp hop
    exact ⟨_,rfl⟩
  have hcov := erase_ops_framed hb hin hs (fun a ha => hsub.subset ha)
  rw [block_data hw data len d f hb]
  simp only [dfuWriteBlock, dif_neg hacc.2]
  cases he : (erasePages hw (pages (pageAddr (writeAddr d)) (writeAddr d + len.setWidth 32)
      (flashEnd_le hacc.2)) f).1 with
  | false =>
    refine ⟨_,_,[],hp,performs_nil hw hp.idle,hkind,?_,fun hne => absurd rfl hne⟩
    rw [List.append_nil]
    exact hcov
  | true =>
    have herased := (erase_pages_ideal (storing_ideal hs) _
      (page_aligned (writeAddr d) (flashEnd_le hacc.2)) f hi he).erased
    rw [covered_pages hb hin] at herased
    obtain ⟨n,hn,hq,-⟩ := write_performs hw (writeAddr d) data len.toNat _ hp.idle
    have hwrite := write_ops_framed hb hin hs hfit (n := n) (by omega) data
    refine ⟨_,_,writeOps n (writeAddr d) data,hp,?_,hkind,?_,fun _ => herased⟩
    · simp only [Bool.not_true, Bool.false_eq_true, if_false]
      split_ifs <;> exact hq
    · intro op hop
      exact (List.mem_append.mp hop).elim (hcov op) (hwrite op)

theorem framed_of_fits {hw : Controller} (hs : Storing hw) (hfit : Fits (writeAddr d) len)
    (data : Source) (f : Fmc) (hi : Idle f) : Framed hw data len d f := by
  have hend := inside_end hb hin
  have hpos : 0 < len.toNat := hb.2
  obtain ⟨g,erases,blocks,hp,hq,hkind,hcov,herased⟩ := write_framed hb hin hs hfit data f hi
  have hpages : AgreeOff (coveredPages (writeAddr d) len.toNat) f.flash
      (dfuHandleData hw data len d f).2.flash := by
    apply performs_frame (performs_append hp hq)
    intro op hop log m
    exact agreeOff_mono (hcov op hop).1 ((hcov op hop).2 log m)
  refine ⟨hpages,fun x hx => hpages x (fun hc => ?_),g,erases,blocks,hp,hq,hkind,?_⟩
  · have hlow := covered_below hend hpos hc
    have hf := flashEnd_toNat
    omega
  · intro op hop x hx y hy
    have hx' := (hcov op (List.mem_append_right _ hop)).1 hx
    apply herased (List.ne_nil_of_mem hop) y
    rw [mem_covered hend hpos] at hx' ⊢
    rw [mem_block] at hy
    omega

theorem unfit_spills (hfit : ¬ Fits (writeAddr d) len) :
    ¬ Framed perfect ⟨0x20000000,fun _ => 0⟩ len d (resetFmc erasedByte) := by
  intro h
  have hend := inside_end hb hin
  have hpos : 0 < len.toNat := hb.2
  obtain ⟨-,hbytes⟩ := write_block_completes perfect_storing perfect_reliable
    ⟨0x20000000,fun _ => 0⟩ len d (resetFmc erasedByte) (reset_idle erasedByte) hend
  rw [← block_data perfect _ len d _ hb] at hbytes
  -- the first byte behind the pages of the payload
  obtain ⟨i,hi⟩ : ∃ i, (writeAddr d).toNat + i = ((writeAddr d).toNat+len.toNat+255)/256*256 :=
    ⟨((writeAddr d).toNat+len.toNat+255)/256*256 - (writeAddr d).toNat,by omega⟩
  have hp := phys_toNat (writeAddr d) (by omega)
  have ho := offset_toNat (phys (writeAddr d)) i
  have hspill := hbytes i (by unfold Fits at hfit; rw [rounded]; omega)
  have hkept := h.pages (phys (writeAddr d) + BitVec.ofNat 32 i) (by
    rw [mem_covered hend hpos]
    omega)
  have hzero : erasedByte (phys (writeAddr d) + BitVec.ofNat 32 i) = 0 :=
    hkept.symm.trans hspill
  have hmod : (phys (writeAddr d) + BitVec.ofNat 32 i).toNat % 4 = 0 := by omega
  rw [erasedByte, hmod] at hzero
  exact absurd hzero (by decide)

end Block

/-- A block inside the flash keeps its frame, whatever it holds and whatever the
flash holds, exactly when it fits. -/
theorem framed_iff_fits (len : BitVec 16) (d : Dfu) (hb : IsBlock len d)
    (hin : blockEnd len d ≤ flashEnd.toNat) :
    (∀ hw, Storing hw → ∀ data f, Idle f → Framed hw data len d f) ↔ Fits (writeAddr d) len := by
  constructor
  · intro h
    by_contra hfit
    exact unfit_spills hb hin hfit (h perfect perfect_storing _ _ (reset_idle erasedByte))
  · intro hfit hw hs data f hi
    exact framed_of_fits hb hin hs hfit data f hi

/-- 250 bytes at 0x4010, which reach into a second page. -/
theorem block_framed : Framed perfect ⟨0x20000000,fun _ => 7⟩ 250 ⟨.dfuDnloadSync,.ok,0x4010,2⟩
    (resetFmc fun _ => 0xFF) :=
  (framed_iff_fits 250 ⟨.dfuDnloadSync,.ok,0x4010,2⟩ (by decide) (by decide)).mpr (by decide)
    perfect perfect_storing _ _ (reset_idle _)

/-- One byte at 0x4001 is programmed as 256 bytes, the last of them in the next page. -/
theorem byte_at_4001_spills : ¬ ∀ (hw : Controller) (data : Source) (len : BitVec 16) (d : Dfu)
    (f : Fmc), Storing hw → Idle f → IsBlock len d → blockEnd len d ≤ flashEnd.toNat →
    Framed hw data len d f := by
  intro h
  have hb : IsBlock 1 ⟨.dfuDnloadSync,.ok,0x4001,2⟩ := by decide
  have hin : blockEnd 1 ⟨.dfuDnloadSync,.ok,0x4001,2⟩ ≤ flashEnd.toNat := by decide
  exact unfit_spills hb hin (by decide) (h perfect _ 1 _ _ perfect_storing (reset_idle _) hb hin)

end Swindle.BlockFrame
