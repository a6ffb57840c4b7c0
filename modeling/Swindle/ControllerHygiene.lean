import Swindle.IdealFlash
import Swindle.MachineRuns

/-!
# Calls that leave nothing behind

The primitives share the control and the status register of the controller. A
flash that has no such registers, but remembers what it holds and what it was
told to do, answers every call in the same way: whatever failed before, a call
finds the registers as if it were the first one.
-/

set_option autoImplicit false

namespace Swindle.ControllerHygiene
open Swindle.WordMemory Swindle.FlashController Swindle.FlashOperations Swindle.MachineRuns

/-! ## The flash without registers -/

structure Cells where
  flash : Memory
  cache : List (Addr × Word)
  log : List Op

def cells (f : Fmc) : Cells := ⟨f.flash,f.cache,f.log⟩

section Ideal
variable (hw : Controller)

def commit (op : Op) (c : Cells) : Bool × Cells :=
  let r := hw c.log op c.flash
  (r.2.ok, ⟨r.1,[],c.log ++ [op]⟩)

def erasePage (addr : Addr) (c : Cells) : Bool × Cells :=
  let r := commit hw (.fastErase (phys addr)) c
  (r.1 && fmcPageIsErased r.2.flash addr, r.2)

def erasePages : ℕ → Addr → Cells → Bool × Cells
  | 0, _, c => (true, c)
  | n+1, a, c =>
    let r := erasePage hw a c
    if r.1 then erasePages n (a + 256) r.2 else (false, r.2)

/-- Words left in the cache are programmed along with the first block. -/
def programBlocks : ℕ → Addr → Source → Cells → Bool × Cells
  | 0, _, _, c => (true, c)
  | n+1, a, src, c =>
    let r := commit hw (.fastProgram (c.cache ++ blockWords (phys a) src)) c
    if r.1 then programBlocks n (a + 256) (src.advance 256) r.2 else (false, r.2)

end Ideal

/-! ## Calls -/

inductive Call where
  | erasePage (addr : Addr)
  | erase32k (addr : Addr)
  | eraseRange (startAddress : Addr) (sizeInKBytes : ℤ)
  | write (startAddress : Addr) (data : Source) (sizeInBytes : ℤ)

def execute (hw : Controller) : Call → Fmc → Bool × Fmc
  | .erasePage addr, f => fmcErasePage hw addr f
  | .erase32k addr, f => fmcErase32k hw addr f
  | .eraseRange a size, f => fmcEraseRange hw a size.toNat f
  | .write a data size, f => fmcWrite hw a data size f

def ideal (hw : Controller) : Call → Cells → Bool × Cells
  | .erasePage addr, c => erasePage hw addr c
  | .erase32k addr, c => commit hw (.blockErase (phys addr)) c
  | .eraseRange a size, c => erasePages hw (size.toNat*4) a c
  | .write a data size, c => programBlocks hw ((size.toNat+255)/256) a data c

/-- Every control word that commits this operation has exactly one mode bit set. -/
def SingleMode (op : Op) : Prop := ∀ v addr cache, decode v addr cache = op →
  [has v fmcCtlFastErase,has v fmcCtlBer32,has v fmcCtlFastProgram].count true = 1

/-- The call ends as on the flash without registers, with every mode bit and flag
clear, and has committed operations with a single mode only. -/
structure Answers (f : Fmc) (r : Bool × Fmc) (i : Bool × Cells) : Prop where
  quiet : Quiet r.2
  result : r.1 = i.1
  cells : cells r.2 = i.2
  commits : ∃ ops, r.2.log = f.log ++ ops ∧ ∀ op ∈ ops, SingleMode op

theorem defined_single (op : Op) (h : ∀ v, op ≠ .undefined v) : SingleMode op := by
  intro v addr cache hd
  by_contra hc
  apply h v
  rw [← hd, decode]
  by_cases hl : (has v fmcCtlLk || has v fmcCtlFastUnlock) = true
  · rw [if_pos hl]
  · rw [if_neg hl]
    revert hc
    cases has v fmcCtlFastErase <;> cases has v fmcCtlBer32 <;> cases has v fmcCtlFastProgram <;>
      simp

theorem performs_cells {hw : Controller} {op : Op} {f f' : Fmc} (h : Performs hw [op] f f') :
    cells f' = (commit hw op (cells f)).2 := by
  have hflash := congrArg Prod.fst h.memory
  have hlog := congrArg Prod.snd h.memory
  simp only [cells, commit, Cells.mk.injEq]
  exact ⟨hflash,h.idle.cache,hlog⟩

theorem performs_answers {hw : Controller} {op : Op} {f : Fmc} {r : Bool × Fmc} {b : Bool}
    (h : Performs hw [op] f r.2) (hop : ∀ v, op ≠ .undefined v) (hb : r.1 = b) :
    Answers f r (b, (commit hw op (cells f)).2) :=
  ⟨h.idle.quiet,hb,performs_cells h,[op],performs_log h,by simpa using defined_single op hop⟩

/-- A call that goes on after a first part that has succeeded, or stops there. -/
theorem answers_then {f : Fmc} {r s t : Bool × Fmc} {i j k : Bool × Cells}
    (h : Answers f r i) (hs : r.1 = true → s = t ∧ Answers r.2 t j ∧ k = j)
    (hf : r.1 = false → s = (false,r.2) ∧ k = (false,i.2)) : Answers f s k := by
  cases hr : r.1 with
  | true =>
    obtain ⟨rfl,ht,rfl⟩ := hs hr
    obtain ⟨ops,hlog,hops⟩ := h.commits
    obtain ⟨more,hlog',hmore⟩ := ht.commits
    refine ⟨ht.quiet,ht.result,ht.cells,ops++more,by rw [hlog', hlog, List.append_assoc],?_⟩
    intro op hop
    exact (List.mem_append.mp hop).elim (hops op) (hmore op)
  | false =>
    obtain ⟨rfl,rfl⟩ := hf hr
    exact ⟨h.quiet,rfl,h.cells,h.commits⟩

section Primitives
variable (hw : Controller)

theorem erase_page_answers (a : Addr) (f : Fmc) (h : Quiet f) :
    Answers f (fmcErasePage hw a f) (erasePage hw a (cells f)) := by
  have hp := erase_page_performs hw a f h
  have hres := erase_page_result hw a f h
  have hflash : (fmcErasePage hw a f).2.flash =
      (commit hw (.fastErase (phys a)) (cells f)).2.flash :=
    congrArg Cells.flash (performs_cells hp)
  rw [hflash] at hres
  exact performs_answers hp (by simp) hres

theorem erase_pages_answers (n : ℕ) (a : Addr) (f : Fmc) (h : Quiet f) :
    Answers f (fmcErasePages hw n a f) (erasePages hw n a (cells f)) := by
  induction n generalizing a f with
  | zero => exact ⟨h,rfl,rfl,[],by simp [fmcErasePages],by simp⟩
  | succ n ih =>
    have hp := erase_page_answers hw a f h
    apply answers_then hp
    · intro hr
      refine ⟨by rw [fmcErasePages, if_pos hr],ih (a + 256) _ hp.quiet,?_⟩
      rw [erasePages, if_pos (hp.result ▸ hr), hp.cells]
    · intro hr
      refine ⟨by simp only [fmcErasePages, hr]; rfl,?_⟩
      simp only [erasePages, ← hp.result, hr]
      rfl

theorem write_loop_answers (n : ℕ) (a : Addr) (src : Source) (size : ℤ)
    (hn : n = (size.toNat+255)/256) (f : Fmc) (h : Quiet f) (hu : Unlocked f) :
    Answers f (fmcWriteLoop hw a src size f) (programBlocks hw n a src (cells f)) := by
  induction n generalizing a src size f with
  | zero =>
    rw [fmcWriteLoop, if_neg (by omega)]
    exact ⟨h,rfl,rfl,[],by simp,by simp⟩
  | succ n ih =>
    obtain ⟨hp,hv,hr⟩ := write_block_quiet hw a src f h hu
    have hb : Answers f (fmcWriteBlock hw a src f)
        (commit hw (.fastProgram ((cells f).cache ++ blockWords (phys a) src)) (cells f)) :=
      performs_answers hp (by simp) hr
    rw [write_loop_step hw a src size f (by omega)]
    apply answers_then hb
    · intro hok
      refine ⟨if_pos hok,ih (a + 256) (src.advance 256) (size - 256) (by omega) _ hb.quiet hv,?_⟩
      rw [hb.cells]
      exact if_pos (hb.result ▸ hok)
    · intro hok
      exact ⟨by rw [hok]; rfl,if_neg (by rw [← hb.result, hok]; decide)⟩

theorem call_answers (c : Call) (f : Fmc) (h : Quiet f) :
    Answers f (execute hw c f) (ideal hw c (cells f)) := by
  cases c with
  | erasePage addr => exact erase_page_answers hw addr f h
  | erase32k addr =>
    exact performs_answers (erase_32k_performs hw addr f h) (by simp)
      (erase_32k_result hw addr f h)
  | eraseRange a size => exact erase_pages_answers hw _ a f h
  | write a data size =>
    obtain ⟨hq,hres,hc,hops⟩ := write_loop_answers hw _ a data size rfl (fmcFastUnlock f)
      (unlock_quiet f h) (unlock_unlocked f)
    exact ⟨hq,hres,hc,hops⟩

end Primitives

/-- Whatever the hardware answers, every call of every sequence ends with the mode
bits and the flags clear, and answers as if none had been left by those before. -/
theorem calls_leave_nothing (hw : Controller) (f : Fmc) (h : Quiet f) (cs : List Call) :
    Along (fun c f => (execute hw c f).2)
      (fun c f => Answers f (execute hw c f) (ideal hw c (cells f))) cs f := by
  refine along_invariant _ (fun _ _ => True) Quiet _ ?_ ?_ cs f ?_ h
  · exact fun c f _ hq => (call_answers hw c f hq).quiet
  · exact fun c f _ hq => call_answers hw c f hq
  · exact along_inputs _ (fun _ => True) cs f (fun _ _ => trivial)

def moody : Controller := fun log _ m =>
  (m, ⟨log.length % 2 = 0,log.length % 3 = 0,log.length % 5 ≠ 0⟩)

theorem moody_leaves_nothing :
    let f := IdealFlash.resetFmc fun _ => 0xFF
    let cs := [Call.erasePage 0x4000,.erase32k 0x8000,.write 0x4000 ⟨0x20000001,fun _ => 7⟩ 300,
      .eraseRange 0x4000 4]
    Along (fun c f => (execute moody c f).2)
      (fun c f => Answers f (execute moody c f) (ideal moody c (cells f))) cs f :=
  calls_leave_nothing moody _ (IdealFlash.reset_idle _).quiet _

end Swindle.ControllerHygiene
