import Swindle.FlashProgress

/-!
# Controllers that store at any alignment

A controller that erases exactly its page and stores every word where it is
told to, erased or not. The erase loop of a block works on whole pages, the
write loop on whole blocks of 256 bytes from where the payload starts.
-/

set_option autoImplicit false

namespace Swindle.StoringFlash
open Swindle.WordMemory Swindle.FlashController Swindle.FlashOperations Swindle.FlashFrames
open Swindle.DfuHandlers Swindle.IdealFlash Swindle.FlashProgress

structure Storing (hw : Controller) : Prop where
  erase : ∀ log a m, (hw log (.fastErase a) m).1 = fill (block 256 a) m
  program : ∀ log words m, (hw log (.fastProgram words) m).1 = storeAll words m

theorem storing_ideal {hw : Controller} (h : Storing hw) : Ideal hw :=
  ⟨h.erase,fun log p src m _ _ => h.program log (blockWords p src) m⟩

theorem perfect_storing : Storing perfect := ⟨fun _ _ _ => rfl,fun _ _ _ => rfl⟩

/-- The pages of the bytes from `wa` on, in the memory behind the controller. -/
def coveredPages (wa : Addr) (len : ℕ) : Set Addr :=
  {x | ∃ i < len, x ∈ block 256 (phys (wa + BitVec.ofNat 32 i))}

section Covered
variable {wa : Addr} {len : ℕ} (hend : wa.toNat + len ≤ 0x40000)
include hend

theorem mem_covered (hpos : 0 < len) {x : Addr} : x ∈ coveredPages wa len ↔
    wa.toNat/256*256 + 0x08000000 ≤ x.toNat ∧
      x.toNat < (wa.toNat+len+255)/256*256 + 0x08000000 := by
  constructor
  · rintro ⟨i,hi,hx⟩
    have ho := offset_toNat wa i
    have hp := phys_toNat (wa + BitVec.ofNat 32 i) (by omega)
    rw [mem_block] at hx
    omega
  · intro hx
    have hstart : x.toNat - 0x08000000 - wa.toNat < len ∨
        (x.toNat - 0x08000000)/256 = (wa.toNat+len-1)/256 := by omega
    rcases hstart with hi | hi
    · have ho := offset_toNat wa (x.toNat - 0x08000000 - wa.toNat)
      have hp := phys_toNat (wa + BitVec.ofNat 32 (x.toNat - 0x08000000 - wa.toNat)) (by omega)
      refine ⟨_,hi,?_⟩
      rw [mem_block]
      omega
    · have ho := offset_toNat wa (len-1)
      have hp := phys_toNat (wa + BitVec.ofNat 32 (len-1)) (by omega)
      refine ⟨len-1,by omega,?_⟩
      rw [mem_block]
      omega

theorem covered_below (hpos : 0 < len) {x : Addr} (hx : x ∈ coveredPages wa len) :
    x.toNat < 0x08040000 := by
  rw [mem_covered hend hpos] at hx
  omega

end Covered

theorem rewrite_covered_pages (wa : Addr) (len : BitVec 16) (hpos : 0 < len.toNat)
    (hend : wa.toNat + len.toNat ≤ 0x40000) (h : wa + len.setWidth 32 ≤ 0xFFFFFF00) :
    pageSet (pages (pageAddr wa) (wa + len.setWidth 32) h) = coveredPages wa len.toNat := by
  have hpa := pageAddr_toNat wa
  have hlim : (wa + len.setWidth 32).toNat = wa.toNat + len.toNat := by bv_omega
  ext x
  rw [mem_covered hend hpos]
  constructor
  · rintro ⟨a,ha,hx⟩
    obtain ⟨k,hk,hlt⟩ := mem_pages.mp ha
    rw [BitVec.lt_def, hlim] at hlt
    have hp := phys_toNat a (by omega)
    rw [mem_block] at hx
    omega
  · intro hx
    obtain ⟨k,hk⟩ : ∃ k, k = (x.toNat - 0x08000000 - wa.toNat/256*256)/256 := ⟨_,rfl⟩
    have ho := offset_toNat (pageAddr wa) (256*k)
    have hp := phys_toNat (pageAddr wa + BitVec.ofNat 32 (256*k)) (by omega)
    refine ⟨pageAddr wa + BitVec.ofNat 32 (256*k),mem_pages.mpr ⟨k,by omega,?_⟩,?_⟩
    · rw [BitVec.lt_def, hlim]
      omega
    · rw [mem_block]
      omega

section Storing
variable {hw : Controller} (hs : Storing hw)
include hs

theorem block_stored (a : Addr) (src : Source) (f : Fmc) (h : Idle f) (hu : Unlocked f) :
    (fmcWriteBlock hw a src f).2.flash = storeAll (blockWords (phys a) src) f.flash := by
  obtain ⟨hp,-,-⟩ := write_block_performs hw a src f h hu
  rw [performs_flash hp, hs.program]

theorem write_loop_storing (n : ℕ) (a : Addr) (src : Source) (size : ℤ)
    (hn : n = (size.toNat+255)/256) (hend : a.toNat + 256*n ≤ 0x08000000) (f : Fmc) (h : Idle f)
    (hu : Unlocked f) :
    AgreeOff (window a (256*n)) f.flash (fmcWriteLoop hw a src size f).2.flash ∧
      ((fmcWriteLoop hw a src size f).1 = true → ∀ i < 256*n,
        (fmcWriteLoop hw a src size f).2.flash (phys a + BitVec.ofNat 32 i) = src.byte i) := by
  induction n generalizing a src size f with
  | zero =>
    have hsize : ¬ 0 < size := by omega
    rw [fmcWriteLoop, if_neg hsize]
    exact ⟨agreeOff_refl _ _,fun _ i hi => absurd hi (by omega)⟩
  | succ n ih =>
    have hsize : 0 < size := by omega
    obtain ⟨hp,hv,-⟩ := write_block_performs hw a src f h hu
    have hflash := block_stored hs a src f h hu
    have hphys := phys_toNat a (by omega)
    have hhead : AgreeOff (window a (256*(n+1))) f.flash (fmcWriteBlock hw a src f).2.flash := by
      rw [hflash]
      apply agreeOff_mono _ (storeAll_frame _ _)
      intro x hx
      rw [block_target] at hx
      rw [mem_window]
      bv_omega
    rw [write_loop_step hw a src size f hsize]
    split_ifs
    · by_cases h0 : n = 0
      · subst h0
        have hlast : ¬ 0 < size - 256 := by omega
        rw [fmcWriteLoop, if_neg hlast]
        refine ⟨hhead,fun _ i hi => ?_⟩
        rw [hflash]
        exact block_byte (phys a) src f.flash i (by omega)
      · have hnext : (a + 256).toNat = a.toNat + 256 := by bv_omega
        obtain ⟨hframe,hbytes⟩ := ih (a + 256) (src.advance 256) (size - 256) (by omega) (by omega)
          _ hp.idle hv
        refine ⟨agreeOff_trans hhead (agreeOff_mono (fun x hx => ?_) hframe),fun hok i hi => ?_⟩
        · rw [mem_window] at hx ⊢
          omega
        · have ho := offset_toNat (phys a) i
          by_cases hlt : i < 256
          · rw [hframe _ (by rw [mem_window]; omega), hflash]
            exact block_byte (phys a) src f.flash i hlt
          · have hi' := hbytes hok (i-256) (by omega)
            rw [next_page_byte a i (Nat.not_lt.mp hlt) (by omega)] at hi'
            rw [hi', advance_byte src (Nat.not_lt.mp hlt)]
    · exact ⟨hhead,fun hf => absurd hf (by simp)⟩

/-- A block that ends without an error is stored. What else its first page held
is erased, and what lies before that page is as it was. -/
theorem write_block_storing (data : Source) (len : BitVec 16) (d : Dfu) (f : Fmc) (h : Idle f)
    (hpos : 0 < len.toNat) (hend : (writeAddr d).toNat + len.toNat ≤ 0x40000)
    (hok : (dfuWriteBlock hw data len d f).1.state ≠ .dfuError) :
    (∀ i < len.toNat, (dfuWriteBlock hw data len d f).2.flash
      (phys (writeAddr d) + BitVec.ofNat 32 i) = data.byte i) ∧
    (∀ x : Addr, (writeAddr d).toNat/256*256 + 0x08000000 ≤ x.toNat →
      x.toNat < (writeAddr d).toNat + 0x08000000 →
      (dfuWriteBlock hw data len d f).2.flash x = erasedByte x) ∧
    (∀ x : Addr, x.toNat < (writeAddr d).toNat/256*256 + 0x08000000 →
      (dfuWriteBlock hw data len d f).2.flash x = f.flash x) := by
  obtain ⟨hin,he,-,hbytes,heq⟩ := write_block_ok hw data len d f hok
  rw [heq]
  have halign := page_aligned (writeAddr d) (flashEnd_le hin)
  have herase := erase_pages_ideal (storing_ideal hs) _ halign f h he
  rw [rewrite_covered_pages _ len hpos hend] at herase
  obtain ⟨done,-,hp⟩ := erase_pages_performs hw (pages (pageAddr (writeAddr d))
    (writeAddr d + len.setWidth 32) (flashEnd_le hin)) f h
  obtain ⟨hframe,-⟩ := write_loop_storing hs _ (writeAddr d) data len.toNat rfl (by omega) _
    (unlock_idle _ hp.idle) (unlock_unlocked _)
  refine ⟨hbytes,fun x hlo hhi => ?_,fun x hx => ?_⟩
  · rw [fmcWrite, hframe x (by rw [mem_window]; omega)]
    exact herase.erased x ((mem_covered hend hpos).mpr (by omega))
  · rw [fmcWrite, hframe x (by rw [mem_window]; omega)]
    exact herase.frame x (fun hc => by rw [mem_covered hend hpos] at hc; omega)

end Storing

theorem write_loop_succeeds {hw : Controller}
    (hok : ∀ log words m, (hw log (.fastProgram words) m).2.ok = true) (n : ℕ) (a : Addr)
    (src : Source) (size : ℤ) (hn : n = (size.toNat+255)/256) (f : Fmc) (h : Idle f)
    (hu : Unlocked f) : (fmcWriteLoop hw a src size f).1 = true := by
  induction n generalizing a src size f with
  | zero => rw [fmcWriteLoop, if_neg (by omega)]
  | succ n ih =>
    obtain ⟨hp,hv,hr⟩ := write_block_performs hw a src f h hu
    rw [write_loop_step hw a src size f (by omega), if_pos (by rw [hr, hok])]
    exact ih _ _ _ (by omega) _ hp.idle hv

theorem write_block_completes {hw : Controller} (hs : Storing hw) (hr : Reliable hw)
    (data : Source) (len : BitVec 16) (d : Dfu) (f : Fmc) (h : Idle f)
    (hend : (writeAddr d).toNat + len.toNat ≤ 0x40000) :
    (dfuWriteBlock hw data len d f).1 = d.done ∧ ∀ i < rounded len,
      (dfuWriteBlock hw data len d f).2.flash (phys (writeAddr d) + BitVec.ofNat 32 i) =
        data.byte i := by
  have h1 := end_inside len d hend
  have he := erase_pages_succeed hr _ (page_aligned (writeAddr d) (flashEnd_le h1)) f h
  obtain ⟨done,-,hp⟩ := erase_pages_performs hw (pages (pageAddr (writeAddr d))
    (writeAddr d + len.setWidth 32) (flashEnd_le h1)) f h
  have hw1 := write_loop_succeeds hr.programs _ (writeAddr d) data len.toNat rfl _
    (unlock_idle _ hp.idle) (unlock_unlocked _)
  obtain ⟨-,hbytes⟩ := write_loop_storing hs _ (writeAddr d) data len.toNat rfl (by omega) _
    (unlock_idle _ hp.idle) (unlock_unlocked _)
  have hstored := hbytes hw1
  rw [write_block_done hw data len d f (h := h1) he hw1 (fun i hi => hstored i (by omega))]
  refine ⟨rfl,fun i hi => ?_⟩
  rw [rounded] at hi
  exact hstored i (by omega)

end Swindle.StoringFlash
