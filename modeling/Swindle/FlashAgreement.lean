import Swindle.IdealFlash

/-!
# Running the primitives over memories that agree

On a controller whose operations are local and memoryless, a procedure that
reads and erases and programs inside a set does the same over any two memories
that agree on that set.
-/

set_option autoImplicit false

namespace Swindle.FlashAgreement
open Swindle.WordMemory Swindle.FlashController Swindle.FlashOperations Swindle.DfuHandlers
open Swindle.FlashFrames Swindle.IdealFlash

/-- Idle controllers over memories that agree on `T`. -/
structure Alike (T : Set Addr) (f f' : Fmc) : Prop where
  idle : Idle f
  idle' : Idle f'
  agree : AgreeOn T f.flash f'.flash

theorem erased_words_agree (p : Addr) (hp : p.toNat % 256 = 0) (m m' : Memory)
    (h : AgreeOn (block 256 p) m m') : erasedWords m p = erasedWords m' p := by
  have hword : ∀ i < 64, readWord m (p + 4*BitVec.ofNat 32 i) =
      readWord m' (p + 4*BitVec.ofNat 32 i) := by
    intro i hi
    have hb : ∀ k < 256, m' (p + BitVec.ofNat 32 k) = m (p + BitVec.ofNat 32 k) :=
      fun k hk => h _ ((mem_page_offset hp).mpr ⟨k,hk,rfl⟩)
    rw [readWord_offset, readWord_offset, hb _ (by omega), hb _ (by omega), hb _ (by omega),
      hb _ (by omega)]
  rw [Bool.eq_iff_iff]
  simp only [erasedWords, List.all_eq_true, List.mem_range]
  constructor
  · intro ha i hi
    rw [← hword i hi]
    exact ha i hi
  · intro ha i hi
    rw [hword i hi]
    exact ha i hi

def PageIn (T : Set Addr) (a : Addr) : Prop := a.toNat % 256 = 0 ∧ block 256 (phys a) ⊆ T

theorem page_is_erased_agree {T : Set Addr} {a : Addr} (ha : PageIn T a) {m m' : Memory}
    (h : AgreeOn T m m') : fmcPageIsErased m a = fmcPageIsErased m' a := by
  have hp := phys_cases a
  have h256 := ha.1
  exact erased_words_agree _ (by omega) _ _ (fun x hx => h x (ha.2 hx))

variable {hw : Controller} {T : Set Addr} {f f' : Fmc}

theorem op_agree (hl : Local hw) (hm : Memoryless hw) (log log' : List Op) (op : Op)
    (ht : target op ⊆ T) (m m' : Memory) (h : AgreeOn T m m') :
    AgreeOn T (hw log op m).1 (hw log' op m').1 ∧ (hw log op m).2.ok = (hw log' op m').2.ok := by
  obtain ⟨hin,hok⟩ := hm log log' op m m' (fun x hx => h x (ht hx))
  refine ⟨fun x hx => ?_,hok⟩
  by_cases hxt : x ∈ target op
  · exact hin x hxt
  · rw [hl log op m x hxt, hl log' op m' x hxt, h x hx]

theorem erase_page_alike (hl : Local hw) (hm : Memoryless hw) (a : Addr) (ha : PageIn T a)
    (h : Alike T f f') : (fmcErasePage hw a f).1 = (fmcErasePage hw a f').1 ∧
      Alike T (fmcErasePage hw a f).2 (fmcErasePage hw a f').2 := by
  have hp := erase_page_performs hw a f h.idle.quiet
  have hp' := erase_page_performs hw a f' h.idle'.quiet
  obtain ⟨hag,hok⟩ := op_agree hl hm f.log f'.log (.fastErase (phys a)) ha.2 _ _ h.agree
  rw [← performs_flash hp, ← performs_flash hp'] at hag
  refine ⟨?_,hp.idle,hp'.idle,hag⟩
  rw [erase_page_result hw a f h.idle.quiet, erase_page_result hw a f' h.idle'.quiet, hok,
    page_is_erased_agree ha hag]

theorem erase_range_alike (hl : Local hw) (hm : Memoryless hw) (n : ℕ) (a : Addr)
    (hin : ∀ p ∈ pagesFrom a n, PageIn T p) (h : Alike T f f') :
    (fmcErasePages hw n a f).1 = (fmcErasePages hw n a f').1 ∧
      Alike T (fmcErasePages hw n a f).2 (fmcErasePages hw n a f').2 := by
  induction n generalizing a f f' with
  | zero => exact ⟨rfl,h⟩
  | succ n ih =>
    rw [pagesFrom] at hin
    obtain ⟨hr,ha⟩ := erase_page_alike hl hm a (hin a (by simp)) h
    simp only [fmcErasePages, ← hr]
    split_ifs
    · exact ih (a + 256) (fun p hp => hin p (List.mem_cons_of_mem a hp)) ha
    · exact ⟨rfl,ha⟩

theorem erase_pages_alike (hl : Local hw) (hm : Memoryless hw) (as : List Addr)
    (hin : ∀ p ∈ as, PageIn T p) (h : Alike T f f') :
    (erasePages hw as f).1 = (erasePages hw as f').1 ∧
      Alike T (erasePages hw as f).2 (erasePages hw as f').2 := by
  apply erase_pages_lockstep (Alike T) as _ _ h
  · intro a ha g g' hg
    exact page_is_erased_agree (hin a ha) hg.agree
  · intro a ha g g' hg
    exact erase_page_alike hl hm a (hin a ha) hg

theorem write_block_alike (hl : Local hw) (hm : Memoryless hw) (a : Addr) (src : Source)
    (ht : target (.fastProgram (blockWords (phys a) src)) ⊆ T) (h : Alike T f f')
    (hu : Unlocked f) (hu' : Unlocked f') :
    (fmcWriteBlock hw a src f).1 = (fmcWriteBlock hw a src f').1 ∧
      Alike T (fmcWriteBlock hw a src f).2 (fmcWriteBlock hw a src f').2 := by
  obtain ⟨hp,-,hr⟩ := write_block_performs hw a src f h.idle hu
  obtain ⟨hp',-,hr'⟩ := write_block_performs hw a src f' h.idle' hu'
  obtain ⟨hag,hok⟩ := op_agree hl hm f.log f'.log _ ht _ _ h.agree
  rw [← performs_flash hp, ← performs_flash hp'] at hag
  exact ⟨by rw [hr, hr', hok],hp.idle,hp'.idle,hag⟩

theorem write_loop_alike (hl : Local hw) (hm : Memoryless hw) (n : ℕ) (a : Addr) (src : Source)
    (size : ℤ) (hn : n = (size.toNat+255)/256) (hin : ∀ op ∈ writeOps n a src, target op ⊆ T)
    (h : Alike T f f') (hu : Unlocked f) (hu' : Unlocked f') :
    (fmcWriteLoop hw a src size f).1 = (fmcWriteLoop hw a src size f').1 ∧
      Alike T (fmcWriteLoop hw a src size f).2 (fmcWriteLoop hw a src size f').2 := by
  apply write_loop_lockstep (Alike T)
    (fun n a src src' => src = src' ∧ ∀ op ∈ writeOps n a src, target op ⊆ T) _ _ _ n a src src
    ⟨rfl,hin⟩ size hn h hu hu'
  · intro g g' hg
    exact ⟨hg.idle,hg.idle'⟩
  · rintro n a src _ g g' ⟨rfl,hin⟩ hg hv hv'
    exact write_block_alike hl hm a src (hin _ (List.mem_cons_self)) hg hv hv'
  · rintro n a src _ ⟨rfl,hin⟩
    exact ⟨rfl,fun op hop => hin op (List.mem_cons_of_mem _ hop)⟩

theorem write_alike (hl : Local hw) (hm : Memoryless hw) (a : Addr) (src : Source) (size : ℕ)
    (hin : ∀ op ∈ writeOps ((size+255)/256) a src, target op ⊆ T) (h : Alike T f f') :
    (fmcWrite hw a src size f).1 = (fmcWrite hw a src size f').1 ∧
      Alike T (fmcWrite hw a src size f).2 (fmcWrite hw a src size f').2 :=
  write_loop_alike hl hm _ a src size rfl hin
    ⟨unlock_idle f h.idle,unlock_idle f' h.idle',h.agree⟩ (unlock_unlocked f) (unlock_unlocked f')

theorem verify_agree (a : Addr) (src : Source) (size : ℕ) (m m' : Memory)
    (hin : ∀ i < size, phys a + BitVec.ofNat 32 i ∈ T) (h : AgreeOn T m m') :
    fmcVerify m a src size = fmcVerify m' a src size := by
  rw [Bool.eq_iff_iff, verify_iff, verify_iff]
  constructor
  · intro hv i hi
    rw [h _ (hin i hi)]
    exact hv i hi
  · intro hv i hi
    rw [← h _ (hin i hi)]
    exact hv i hi

end Swindle.FlashAgreement
