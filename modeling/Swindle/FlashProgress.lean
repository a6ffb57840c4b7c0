import Swindle.IdealFlash

/-!
# Controllers that never fail

A controller that executes every erase and program, and reports success,
stores every aligned block that ends within the flash.
-/

set_option autoImplicit false

namespace Swindle.FlashProgress
open Swindle.WordMemory Swindle.FlashController Swindle.FlashOperations Swindle.FlashFrames
open Swindle.DfuHandlers Swindle.IdealFlash

structure Reliable (hw : Controller) : Prop where
  ideal : Ideal hw
  erases : ∀ log a m, (hw log (.fastErase a) m).2.ok = true
  programs : ∀ log words m, (hw log (.fastProgram words) m).2.ok = true

theorem perfect_reliable : Reliable perfect := ⟨perfect_ideal,fun _ _ _ => rfl,fun _ _ _ => rfl⟩

theorem storeAll_append (ws vs : List (Addr × Word)) (m : Memory) :
    storeAll (ws++vs) m = storeAll vs (storeAll ws m) := by
  induction ws generalizing m with
  | nil => rfl
  | cons aw ws ih => exact ih _

theorem stored_byte (word : ℕ → Word) (p : Addr) (n : ℕ) (hn : n ≤ 64) (m : Memory) (i : ℕ)
    (hi : i < 4*n) : storeAll (storedWords word p n) m (p + BitVec.ofNat 32 i) =
      byteOf (word (4*(i/4))) (i%4) := by
  induction n with
  | zero => omega
  | succ n ih =>
    rw [storedWords, List.range_succ, List.map_append, storeAll_append, ← storedWords]
    have hsub : (p + BitVec.ofNat 32 i - (p + 4*BitVec.ofNat 32 n)).toNat =
        (2^32 + i - 4*n) % 2^32 := by
      have ho := offset_toNat p i
      have hm : (4 : Addr)*BitVec.ofNat 32 n = BitVec.ofNat 32 (4*n) :=
        (BitVec.ofNat_mul 4 n).symm
      have ho' := offset_toNat p (4*n)
      rw [hm, BitVec.toNat_sub]
      omega
    have h4 : (4 : Addr).toNat = 4 := rfl
    simp only [List.map_cons, List.map_nil, storeAll, writeWord, BitVec.lt_def, hsub, h4]
    by_cases h : 4*n ≤ i
    · rw [if_pos (by omega), show 4*(i/4) = 4*n by omega]
      congr 1
      omega
    · rw [if_neg (by omega)]
      exact ih (by omega) (by omega)

theorem block_byte (p : Addr) (src : Source) (m : Memory) (i : ℕ) (hi : i < 256) :
    storeAll (blockWords p src) m (p + BitVec.ofNat 32 i) = src.byte i := by
  rw [blockWords, stored_byte _ p 64 (by decide) m i (by omega), Source.loadWord]
  have h := byteOf_littleEndian (fun k => src.byte (4*(i/4)+k)) (i%4) (Nat.mod_lt i (by decide))
  rw [show 4*(i/4) + i%4 = i by omega] at h
  exact h

section Reliable
variable {hw : Controller} (hr : Reliable hw)
include hr

theorem erase_pages_succeed (as : List Addr) (ha : ∀ a ∈ as, a.toNat % 256 = 0) (f : Fmc)
    (h : Idle f) : (erasePages hw as f).1 = true := by
  induction as generalizing f with
  | nil => rfl
  | cons a as ih =>
    have hmem : a.toNat % 256 = 0 := ha a (by simp)
    have htail := fun g hg => ih (fun a' h' => ha a' (by simp [h'])) g hg
    have hpage : (fmcErasePage hw a f).1 = true := by
      rw [erase_page_result hw a f h.quiet, hr.erases, Bool.true_and]
      exact (page_is_erased_iff a hmem _).mpr (erased_page_kept hr.ideal a f h).erased
    simp only [erasePages]
    split_ifs
    · exact htail f h
    · exact htail _ (erase_page_performs hw a f h.quiet).idle

theorem write_loop_stores (n : ℕ) (a : Addr) (src : Source) (size : ℤ)
    (hn : n = (size.toNat+255)/256) (ha : a.toNat % 256 = 0)
    (hend : a.toNat + 256*n ≤ 0x08000000) (f : Fmc) (h : Idle f) (hu : Unlocked f)
    (he : Erased (pageSet (pagesFrom a n)) f.flash) :
    (fmcWriteLoop hw a src size f).1 = true ∧ ∀ i < 256*n,
      (fmcWriteLoop hw a src size f).2.flash (phys a + BitVec.ofNat 32 i) = src.byte i := by
  induction n generalizing a src size f with
  | zero =>
    have hs : ¬ 0 < size := by omega
    rw [fmcWriteLoop, if_neg hs]
    exact ⟨rfl,fun i hi => absurd hi (by omega)⟩
  | succ n ih =>
    have hs : 0 < size := by omega
    obtain ⟨hp,hv,hok⟩ := write_block_performs hw a src f h hu
    rw [hr.programs] at hok
    have hd := pages_disjoint ha hend
    rw [pagesFrom, List.pairwise_cons] at hd
    rw [pagesFrom] at he
    obtain ⟨hflash,hframe⟩ := block_programmed hr.ideal a src f h hu ha
      (fun x hx => he x ⟨a,by simp,hx⟩)
    have hrest := rest_erased hd.1 he hframe
    have hnext : (a + 256).toNat = a.toNat + 256 := by bv_omega
    obtain ⟨hdone,hbytes⟩ := ih (a + 256) (src.advance 256) (size - 256) (by omega) (by omega)
      (by omega) _ hp.idle hv hrest
    have hlater := write_loop_ideal hr.ideal n (a + 256) (src.advance 256) (size - 256) (by omega)
      (by omega) _ hp.idle hv hrest hd.2
    rw [pages_window (by omega) (by omega)] at hlater
    rw [write_loop_step hw a src size f hs, if_pos hok]
    refine ⟨hdone,fun i hi => ?_⟩
    have ho := offset_toNat (phys a) i
    have hphys := phys_toNat a (by omega)
    by_cases hlt : i < 256
    · rw [hlater _ (by rw [mem_window]; omega), hflash]
      exact block_byte (phys a) src f.flash i hlt
    · have hi' := hbytes (i-256) (by omega)
      rw [next_page_byte a i (Nat.not_lt.mp hlt) (by omega)] at hi'
      rw [hi', advance_byte src (Nat.not_lt.mp hlt)]

theorem write_block_succeeds (data : Source) (len : BitVec 16) (d : Dfu) (f : Fmc) (h : Idle f)
    (ha : (writeAddr d).toNat % 256 = 0) (hend : (writeAddr d).toNat + len.toNat ≤ 0x40000) :
    (dfuWriteBlock hw data len d f).1 = d.done := by
  have h1 := end_inside len d hend
  have hwin := rewrite_window (writeAddr d) len ha hend (flashEnd_le h1)
  have halign := page_aligned (writeAddr d) (flashEnd_le h1)
  have he := erase_pages_succeed hr _ halign f h
  have herase := erase_pages_ideal hr.ideal _ halign f h he
  rw [hwin] at herase
  obtain ⟨done,-,hp⟩ := erase_pages_performs hw (pages (pageAddr (writeAddr d))
    (writeAddr d + len.setWidth 32) (flashEnd_le h1)) f h
  have hfrom := payload_window ha len hend
  obtain ⟨hw1,hbytes⟩ := write_loop_stores hr _ (writeAddr d) data len.toNat rfl ha (by omega) _
    (unlock_idle _ hp.idle) (unlock_unlocked _) (hfrom ▸ herase.erased)
  rw [write_block_done hw data len d f (h := h1) he hw1 (fun i hi => hbytes i (by omega))]

end Reliable

end Swindle.FlashProgress
