import Swindle.FlashController

/-!
# What the flash primitives do to memory

A controller whose mode bits and flags are clear is idle. From an idle
controller every primitive commits exactly the operations named here, in this
order and whatever the hardware answers, and leaves the controller idle. Its
result is the one of its own operation; no earlier failure can leak into it.
-/

set_option autoImplicit false

namespace Swindle.FlashOperations
open Swindle.WordMemory Swindle.FlashController

theorem has_twoPow (r : Word) (k : ℕ) (hk : k < 32) : has r (BitVec.twoPow 32 k) = r[k] := by
  unfold has
  rw [BitVec.and_twoPow, BitVec.getLsbD_eq_getElem hk]
  cases h : r[k]
  · simp
  · simp only [if_true, bne_iff_ne, ne_eq]
    intro h0
    simpa [hk] using congrArg (fun x => x.getLsbD k) h0

theorem has_or_mask (r a b : Word) : has r (a ||| b) = (has r a || has r b) := by
  have h : (r &&& a) ||| (r &&& b) = 0#32 ↔ r &&& a = 0#32 ∧ r &&& b = 0#32 :=
    BitVec.or_eq_zero_iff
  unfold has
  rw [Bool.eq_iff_iff, BitVec.and_or_distrib_left]
  simp only [bne_iff_ne, ne_eq, Bool.or_eq_true]
  exact (not_congr h).trans Decidable.not_and_iff_not_or_not

/-- No operation selected, none started, no flag left over, nothing cached. -/
structure Idle (f : Fmc) : Prop where
  pg : has f.ctl fmcCtlPg = false
  start : has f.ctl fmcCtlStart = false
  fastProgram : has f.ctl fmcCtlFastProgram = false
  fastErase : has f.ctl fmcCtlFastErase = false
  ber32 : has f.ctl fmcCtlBer32 = false
  fastStart : has f.ctl fmcCtlFastStart = false
  pgErr : has f.stat fmcStatPgErr = false
  wpErr : has f.stat fmcStatWpErr = false
  endf : has f.stat fmcStatWpEndf = false
  cache : f.cache = []

/-- The same of the registers alone, whatever the cache holds. -/
structure Quiet (f : Fmc) : Prop where
  pg : has f.ctl fmcCtlPg = false
  start : has f.ctl fmcCtlStart = false
  fastProgram : has f.ctl fmcCtlFastProgram = false
  fastErase : has f.ctl fmcCtlFastErase = false
  ber32 : has f.ctl fmcCtlBer32 = false
  fastStart : has f.ctl fmcCtlFastStart = false
  pgErr : has f.stat fmcStatPgErr = false
  wpErr : has f.stat fmcStatWpErr = false
  endf : has f.stat fmcStatWpEndf = false

theorem idle_iff (f : Fmc) : Idle f ↔ Quiet f ∧ f.cache = [] :=
  ⟨fun h => ⟨⟨h.1,h.2,h.3,h.4,h.5,h.6,h.7,h.8,h.9⟩,h.cache⟩,
    fun h => ⟨h.1.1,h.1.2,h.1.3,h.1.4,h.1.5,h.1.6,h.1.7,h.1.8,h.1.9,h.2⟩⟩

theorem Idle.quiet {f : Fmc} (h : Idle f) : Quiet f := ((idle_iff f).mp h).1

structure Unlocked (f : Fmc) : Prop where
  lk : has f.ctl fmcCtlLk = false
  fastUnlock : has f.ctl fmcCtlFastUnlock = false

def replay (hw : Controller) : List Op → Memory × List Op → Memory × List Op
  | [], m => m
  | op::ops, m => replay hw ops ((hw m.2 op m.1).1, m.2 ++ [op])

/-- From `f` the controller committed exactly `ops`, and is idle again in `f'`. -/
structure Performs (hw : Controller) (ops : List Op) (f f' : Fmc) : Prop where
  idle : Idle f'
  memory : (f'.flash,f'.log) = replay hw ops (f.flash,f.log)

theorem replay_append (hw : Controller) (ops rest : List Op) (m : Memory × List Op) :
    replay hw (ops++rest) m = replay hw rest (replay hw ops m) := by
  induction ops generalizing m with
  | nil => rfl
  | cons op ops ih => exact ih _

theorem replay_log (hw : Controller) (ops : List Op) (m : Memory × List Op) :
    (replay hw ops m).2 = m.2 ++ ops := by
  induction ops generalizing m with
  | nil => simp [replay]
  | cons op ops ih => rw [replay, ih]; simp

theorem performs_nil (hw : Controller) {f : Fmc} (h : Idle f) : Performs hw [] f f := ⟨h,rfl⟩

theorem performs_append {hw : Controller} {ops rest : List Op} {f f' f'' : Fmc}
    (h : Performs hw ops f f') (h' : Performs hw rest f' f'') :
    Performs hw (ops++rest) f f'' := by
  refine ⟨h'.idle,?_⟩
  rw [replay_append, ← h.memory, h'.memory]

theorem performs_log {hw : Controller} {ops : List Op} {f f' : Fmc} (h : Performs hw ops f f') :
    f'.log = f.log ++ ops := by
  have hm := congrArg Prod.snd h.memory
  rwa [replay_log] at hm

theorem performs_flash {hw : Controller} {op : Op} {f f' : Fmc} (h : Performs hw [op] f f') :
    f'.flash = (hw f.log op f.flash).1 :=
  congrArg Prod.fst h.memory

section Registers
attribute [local simp] fmcCtlPg fmcCtlStart fmcCtlFastProgram fmcCtlFastErase fmcCtlBer32 fmcCtlLk
  fmcCtlFastUnlock fmcCtlFastStart fmcStatPgErr fmcStatWpErr fmcStatWpEndf has_twoPow has_or_mask

theorem unlock_ctl (f : Fmc) (k : ℕ) (hk : k < 32) : (fmcFastUnlock f).ctl[k] =
    (f.ctl[k] && decide (k ≠ 7) && decide (k ≠ 15)) := by
  have h : (fmcFastUnlock f).ctl =
      (if f.ctl[15] then (if f.ctl[7] then f.ctl &&& ~~~BitVec.twoPow 32 7 else f.ctl) &&&
        ~~~BitVec.twoPow 32 15 else if f.ctl[7] then f.ctl &&& ~~~BitVec.twoPow 32 7 else f.ctl) := by
    cases hl : f.ctl[7] <;> simp [fmcFastUnlock, hl]
  simp only [h]
  split_ifs <;> by_cases h7 : k = 7 <;> by_cases h15 : k = 15 <;> simp_all

theorem unlock_unlocked (f : Fmc) : Unlocked (fmcFastUnlock f) := by
  constructor <;> simp [unlock_ctl]

theorem unlock_quiet (f : Fmc) (h : Quiet f) : Quiet (fmcFastUnlock f) where
  pg := by have := h.pg; simp_all [unlock_ctl]
  start := by have := h.start; simp_all [unlock_ctl]
  fastProgram := by have := h.fastProgram; simp_all [unlock_ctl]
  fastErase := by have := h.fastErase; simp_all [unlock_ctl]
  ber32 := by have := h.ber32; simp_all [unlock_ctl]
  fastStart := by have := h.fastStart; simp_all [unlock_ctl]
  pgErr := h.pgErr
  wpErr := h.wpErr
  endf := h.endf

theorem unlock_idle (f : Fmc) (h : Idle f) : Idle (fmcFastUnlock f) :=
  (idle_iff _).mpr ⟨unlock_quiet f h.quiet,h.cache⟩

theorem unlock_performs (hw : Controller) {f : Fmc} (h : Idle f) :
    Performs hw [] f (fmcFastUnlock f) := ⟨unlock_idle f h,rfl⟩

theorem flags_stat (g : Flags) :
    g.stat[3] = g.pgErr ∧ g.stat[4] = g.wpErr ∧ g.stat[5] = g.endf := by
  obtain ⟨a,b,c⟩ := g
  cases a <;> cases b <;> cases c <;> exact ⟨rfl,rfl,rfl⟩

/-- Symbolic execution of the shared erase body: one commit, with the mode bit
`k` as the only one set, and every bit and flag cleared again. -/
theorem erase_performs (hw : Controller) (k : ℕ) (hk : k = 17 ∨ k = 18) (p : Addr) (f : Fmc)
    (h : Quiet f) :
    let op := if k = 17 then Op.fastErase p else Op.blockErase p
    let r := fmcErase hw (BitVec.twoPow 32 k) p f
    Performs hw [op] f r.2 ∧ Unlocked r.2 ∧ r.1 = (hw f.log op f.flash).2.ok := by
  obtain ⟨h0,h1,h2,h3,h4,h5,h6,h7,h8⟩ := unlock_quiet f h
  obtain ⟨g0,g1⟩ := unlock_unlocked f
  have hf : (fmcFastUnlock f).flash = f.flash := rfl
  have hl : (fmcFastUnlock f).log = f.log := rfl
  unfold fmcErase
  generalize fmcFastUnlock f = u at *
  simp only [fmcCtlPg, fmcCtlStart, fmcCtlFastProgram, fmcCtlFastErase, fmcCtlBer32, fmcCtlLk,
    fmcCtlFastUnlock, fmcCtlFastStart, fmcStatPgErr, fmcStatWpErr, fmcStatWpEndf, has_twoPow,
    Nat.reduceLT] at h0 h1 h2 h3 h4 h5 h6 h7 h8 g0 g1
  rcases hk with rfl | rfl <;>
    simp only [Fmc.writeCtl, Fmc.writeAddr, Fmc.writeStat, decode] <;>
    simp [flags_stat, Flags.ok, *] <;>
    split_ifs <;>
    refine ⟨⟨?_,by simp [replay]⟩,?_,?_⟩ <;>
    first
      | (constructor <;> simp_all [flags_stat])
      | grind

def storedWords (word : ℕ → Word) (prog : Addr) (n : ℕ) : List (Addr × Word) :=
  (List.range n).map (fun i => (prog + 4*BitVec.ofNat 32 i, word (4*i)))

theorem store_words (word : ℕ → Word) (prog : Addr) (n : ℕ) (f : Fmc) :
    storeWords word prog n f = { f with cache := f.cache ++ storedWords word prog n } := by
  unfold storeWords storedWords
  induction n with
  | zero => simp
  | succ n ih =>
    rw [List.range_succ, List.foldl_append, ih]
    simp [Fmc.store]

/-- Both copy loops read the same words, so the branch on the alignment of the
source is not visible in what is programmed. -/
theorem assemble_load (src : Source) : src.assembleWord = src.loadWord :=
  funext fun _ => assemble_bytes _ _ _ _

/-- The 64 words that one block program stores from the physical address `p` on. -/
def blockWords (p : Addr) (src : Source) : List (Addr × Word) := storedWords src.loadWord p 64

/-- What the cache held before is programmed along with the block. -/
theorem write_block_quiet (hw : Controller) (a : Addr) (src : Source) (f : Fmc)
    (h : Quiet f) (hu : Unlocked f) :
    let op := Op.fastProgram (f.cache ++ blockWords (phys a) src)
    let r := fmcWriteBlock hw a src f
    Performs hw [op] f r.2 ∧ Unlocked r.2 ∧ r.1 = (hw f.log op f.flash).2.ok := by
  obtain ⟨h0,h1,h2,h3,h4,h5,h6,h7,h8⟩ := h
  obtain ⟨g0,g1⟩ := hu
  unfold fmcWriteBlock
  simp only [fmcCtlPg, fmcCtlStart, fmcCtlFastProgram, fmcCtlFastErase, fmcCtlBer32, fmcCtlLk,
    fmcCtlFastUnlock, fmcCtlFastStart, fmcStatPgErr, fmcStatWpErr, fmcStatWpEndf, has_twoPow,
    Nat.reduceLT] at h0 h1 h2 h3 h4 h5 h6 h7 h8 g0 g1
  have hb : storedWords src.loadWord (phys a) 64 = blockWords (phys a) src := rfl
  simp only [Fmc.writeCtl, Fmc.writeStat, decode, store_words, assemble_load, ite_self, hb]
  simp [flags_stat, Flags.ok, *]
  split_ifs <;>
    refine ⟨⟨?_,by simp [replay]⟩,?_,?_⟩ <;>
    first
      | (constructor <;> simp_all [flags_stat])
      | grind

theorem write_block_performs (hw : Controller) (a : Addr) (src : Source) (f : Fmc)
    (h : Idle f) (hu : Unlocked f) :
    let op := Op.fastProgram (blockWords (phys a) src)
    let r := fmcWriteBlock hw a src f
    Performs hw [op] f r.2 ∧ Unlocked r.2 ∧ r.1 = (hw f.log op f.flash).2.ok := by
  have hq := write_block_quiet hw a src f h.quiet hu
  rwa [h.cache, List.nil_append] at hq

end Registers

theorem erase_page_snd (hw : Controller) (a : Addr) (f : Fmc) :
    (fmcErasePage hw a f).2 = (fmcErase hw fmcCtlFastErase (phys a) f).2 := by
  simp only [fmcErasePage]
  split_ifs <;> rfl

theorem erase_page_performs (hw : Controller) (a : Addr) (f : Fmc) (h : Quiet f) :
    Performs hw [.fastErase (phys a)] f (fmcErasePage hw a f).2 := by
  rw [erase_page_snd]
  exact (erase_performs hw 17 (Or.inl rfl) (phys a) f h).1

theorem erase_page_result (hw : Controller) (a : Addr) (f : Fmc) (h : Quiet f) :
    (fmcErasePage hw a f).1 = ((hw f.log (.fastErase (phys a)) f.flash).2.ok &&
      fmcPageIsErased (fmcErasePage hw a f).2.flash a) := by
  have he : (fmcErase hw fmcCtlFastErase (phys a) f).1 =
      (hw f.log (.fastErase (phys a)) f.flash).2.ok :=
    (erase_performs hw 17 (Or.inl rfl) (phys a) f h).2.2
  rw [erase_page_snd, ← he]
  cases hr : (fmcErase hw fmcCtlFastErase (phys a) f).1 <;>
    simp [fmcErasePage, fmcPageIsErased, hr]

theorem erase_32k_performs (hw : Controller) (a : Addr) (f : Fmc) (h : Quiet f) :
    Performs hw [.blockErase (phys a)] f (fmcErase32k hw a f).2 :=
  (erase_performs hw 18 (Or.inr rfl) (phys a) f h).1

theorem erase_32k_result (hw : Controller) (a : Addr) (f : Fmc) (h : Quiet f) :
    (fmcErase32k hw a f).1 = (hw f.log (.blockErase (phys a)) f.flash).2.ok :=
  (erase_performs hw 18 (Or.inr rfl) (phys a) f h).2.2

theorem write_loop_step (hw : Controller) (a : Addr) (src : Source) (size : ℤ) (f : Fmc)
    (hs : 0 < size) : fmcWriteLoop hw a src size f =
      if (fmcWriteBlock hw a src f).1 then
        fmcWriteLoop hw (a + 256) (src.advance 256) (size - 256) (fmcWriteBlock hw a src f).2
      else (false, (fmcWriteBlock hw a src f).2) := by
  rw [fmcWriteLoop, if_pos hs]

end Swindle.FlashOperations
