import Swindle.FlashFrames

/-!
# Two controllers that go on alike

Two controllers over the same flash, with different histories behind them that
make no difference to what the hardware does from now on. What is programmed
is read from the source in pieces of 256 bytes, so two sources that agree up to
the end of the last piece are programmed alike.
-/

set_option autoImplicit false

namespace Swindle.FlashTwins
open Swindle.WordMemory Swindle.FlashController Swindle.FlashOperations Swindle.DfuHandlers
open Swindle.FlashFrames

structure Twin (hw : Controller) (f f' : Fmc) : Prop where
  idle : Idle f
  idle' : Idle f'
  flash : f.flash = f'.flash
  alike : ∀ more op m, hw (f.log++more) op m = hw (f'.log++more) op m

variable {hw : Controller} {f f' g g' : Fmc}

theorem twin_refl (h : Idle f) : Twin hw f f := ⟨h,h,rfl,fun _ _ _ => rfl⟩

theorem twin_op (h : Twin hw f f') (op : Op) : hw f.log op f.flash = hw f'.log op f'.flash := by
  have ha := h.alike [] op f.flash
  rw [List.append_nil, List.append_nil] at ha
  rw [ha, h.flash]

theorem replay_alike (ops log log' : List Op) (m : Memory)
    (h : ∀ more op m, hw (log++more) op m = hw (log'++more) op m) :
    (replay hw ops (m,log)).1 = (replay hw ops (m,log')).1 := by
  induction ops generalizing log log' m with
  | nil => rfl
  | cons op ops ih =>
    have hop : hw log op m = hw log' op m := by simpa using h [] op m
    simp only [replay, hop]
    apply ih
    intro more op' m'
    rw [List.append_assoc, List.append_assoc]
    exact h _ op' m'

theorem twin_performs {ops : List Op} (h : Twin hw f f') (hp : Performs hw ops f g)
    (hp' : Performs hw ops f' g') : Twin hw g g' := by
  refine ⟨hp.idle,hp'.idle,?_,?_⟩
  · have hm := congrArg Prod.fst hp.memory
    have hm' := congrArg Prod.fst hp'.memory
    rw [h.flash, replay_alike ops f.log f'.log f'.flash h.alike] at hm
    exact hm.trans hm'.symm
  · intro more op m
    rw [performs_log hp, performs_log hp', List.append_assoc, List.append_assoc]
    exact h.alike _ op m

theorem erase_page_twin (h : Twin hw f f') (a : Addr) :
    (fmcErasePage hw a f).1 = (fmcErasePage hw a f').1 ∧
      Twin hw (fmcErasePage hw a f).2 (fmcErasePage hw a f').2 := by
  have htwin := twin_performs h (erase_page_performs hw a f h.idle.quiet)
    (erase_page_performs hw a f' h.idle'.quiet)
  refine ⟨?_,htwin⟩
  rw [erase_page_result hw a f h.idle.quiet, erase_page_result hw a f' h.idle'.quiet, twin_op h,
    htwin.flash]

theorem erase_pages_twin (h : Twin hw f f') (as : List Addr) :
    (erasePages hw as f).1 = (erasePages hw as f').1 ∧
      Twin hw (erasePages hw as f).2 (erasePages hw as f').2 := by
  apply erase_pages_lockstep (Twin hw) as _ _ h
  · intro a _ g g' ht
    rw [ht.flash]
  · intro a _ g g' ht
    exact erase_page_twin ht a

/-- The two sources agree on their first `n` bytes. -/
def SameBytes (n : ℕ) (src src' : Source) : Prop := ∀ i < n, src.byte i = src'.byte i

theorem block_words_same {src src' : Source} (h : SameBytes 256 src src') (p : Addr) :
    blockWords p src = blockWords p src' := by
  rw [blockWords, blockWords, storedWords, storedWords]
  apply List.map_congr_left
  intro i hi
  rw [List.mem_range] at hi
  have hword : src.loadWord (4*i) = src'.loadWord (4*i) := by
    rw [Source.loadWord, Source.loadWord, h _ (by omega), h _ (by omega), h _ (by omega),
      h _ (by omega)]
  rw [hword]

theorem write_block_twin (h : Twin hw f f') (hu : Unlocked f) (hu' : Unlocked f')
    {src src' : Source} (hs : SameBytes 256 src src') (a : Addr) :
    (fmcWriteBlock hw a src f).1 = (fmcWriteBlock hw a src' f').1 ∧
      Twin hw (fmcWriteBlock hw a src f).2 (fmcWriteBlock hw a src' f').2 := by
  obtain ⟨hp,-,hr⟩ := write_block_performs hw a src f h.idle hu
  obtain ⟨hp',-,hr'⟩ := write_block_performs hw a src' f' h.idle' hu'
  rw [← block_words_same hs (phys a)] at hp' hr'
  exact ⟨by rw [hr, hr', twin_op h],twin_performs h hp hp'⟩

theorem write_loop_twin (n : ℕ) (h : Twin hw f f') (hu : Unlocked f) (hu' : Unlocked f')
    {src src' : Source} (hs : SameBytes (256*n) src src') (a : Addr) (size : ℤ)
    (hn : n = (size.toNat+255)/256) :
    (fmcWriteLoop hw a src size f).1 = (fmcWriteLoop hw a src' size f').1 ∧
      Twin hw (fmcWriteLoop hw a src size f).2 (fmcWriteLoop hw a src' size f').2 := by
  apply write_loop_lockstep (Twin hw) (fun n _ src src' => SameBytes (256*n) src src') _ _ _ n a
    src src' hs size hn h hu hu'
  · intro g g' ht
    exact ⟨ht.idle,ht.idle'⟩
  · intro n a src src' g g' hs ht hv hv'
    exact write_block_twin ht hv hv' (fun i hi => hs i (by omega)) a
  · intro n a src src' hs i hi
    exact hs (256+i) (by omega)

theorem write_twin (h : Twin hw f f') {src src' : Source} (a : Addr) (size : ℕ)
    (hs : SameBytes (256*((size+255)/256)) src src') :
    (fmcWrite hw a src size f).1 = (fmcWrite hw a src' size f').1 ∧
      Twin hw (fmcWrite hw a src size f).2 (fmcWrite hw a src' size f').2 :=
  write_loop_twin _ ⟨unlock_idle f h.idle,unlock_idle f' h.idle',h.flash,h.alike⟩
    (unlock_unlocked f) (unlock_unlocked f') hs a size rfl

theorem verify_same {src src' : Source} (m : Memory) (a : Addr) (size : ℕ)
    (hs : SameBytes size src src') : fmcVerify m a src size = fmcVerify m a src' size := by
  rw [Bool.eq_iff_iff, verify_iff, verify_iff]
  constructor
  · intro hv i hi
    rw [← hs i hi]
    exact hv i hi
  · intro hv i hi
    rw [hs i hi]
    exact hv i hi

/-- A block is written alike from sources that agree up to its last 256 bytes. -/
theorem write_block_data_twin (h : Twin hw f f') {data data' : Source} (len : BitVec 16) (d : Dfu)
    (hs : SameBytes (rounded len) data data') :
    (dfuWriteBlock hw data len d f).1 = (dfuWriteBlock hw data' len d f').1 ∧
      Twin hw (dfuWriteBlock hw data len d f).2 (dfuWriteBlock hw data' len d f').2 := by
  rw [rounded] at hs
  by_cases hend : flashEnd < writeAddr d + len.setWidth 32
  · simp only [dfuWriteBlock, dif_pos hend]
    exact ⟨trivial,h⟩
  · obtain ⟨hre,hte⟩ := erase_pages_twin h (pages (pageAddr (writeAddr d))
      (writeAddr d + len.setWidth 32) (flashEnd_le hend))
    obtain ⟨hrw,htw⟩ := write_twin hte (writeAddr d) len.toNat (fun i hi => hs i (by omega))
    simp only [dfuWriteBlock, dif_neg hend, ← hre, ← hrw, ← htw.flash,
      verify_same _ (writeAddr d) len.toNat (fun i hi => hs i (by omega))]
    split_ifs <;> first | exact ⟨rfl,hte⟩ | exact ⟨rfl,htw⟩

end Swindle.FlashTwins
