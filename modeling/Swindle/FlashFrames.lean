import Swindle.FlashOperations
import Swindle.DfuHandlers

/-!
# Which operations the loops commit, and what they may touch

Every loop over the primitives commits a list of operations that is fixed by
its arguments, up to where it stops and which pages it finds erased. A frame
for the whole loop follows from one for each operation.
-/

set_option autoImplicit false

namespace Swindle.FlashFrames
open Swindle.WordMemory Swindle.FlashController Swindle.FlashOperations Swindle.DfuHandlers

theorem phys_toNat (a : Addr) (h : a.toNat < 0x08000000) :
    (phys a).toNat = a.toNat + 0x08000000 := by
  have ho := Nat.two_pow_add_eq_or_of_lt (i := 27) h 1
  rw [phys, BitVec.toNat_or, show (0x08000000 : Addr).toNat = 2^27*1 from rfl, Nat.or_comm, ← ho]
  omega

/-- The alias bit is set once; what has it already is left alone. -/
theorem phys_cases (a : Addr) : 0x08000000 ≤ (phys a).toNat ∧
    ((phys a).toNat = a.toNat ∨ (phys a).toNat = a.toNat + 0x08000000) := by
  have hbit : a.getLsbD 27 = decide (a.toNat / 2^27 % 2 = 1) := Nat.testBit_eq_decide_div_mod_eq
  have ha := a.isLt
  have hp : phys a = a ||| BitVec.twoPow 32 27 := rfl
  by_cases h : a.toNat / 2^27 % 2 = 1
  · have hsame : phys a = a := by
      rw [hp]
      apply BitVec.eq_of_getLsbD_eq
      intro i hi
      by_cases h27 : i = 27
      · subst h27
        rw [BitVec.getLsbD_or, hbit, decide_eq_true h, Bool.true_or]
      · simp [BitVec.getLsbD_twoPow, Ne.symm h27]
    rw [hsame]
    omega
  · have hand : a &&& BitVec.twoPow 32 27 = 0 := by
      rw [BitVec.and_twoPow, hbit, decide_eq_false h]
      rfl
    rw [hp, ← BitVec.add_eq_or_of_and_eq_zero _ _ hand, BitVec.toNat_add,
      show (BitVec.twoPow 32 27).toNat = 0x08000000 from rfl]
    omega

theorem or_low {x n : ℕ} (hx : x % 4096 = 0) (hn : n < 4096) : x ||| n = x + n := by
  have ho := Nat.two_pow_add_eq_or_of_lt (i := 12) hn (x/4096)
  rw [show 2^12*(x/4096) = x by omega] at ho
  exact ho.symm

theorem phys_offset (a : Addr) (n : ℕ) (ha : a.toNat % 4096 = 0) (hn : n < 4096) :
    (phys (a + BitVec.ofNat 32 n)).toNat = (phys a).toNat + n := by
  have hp := phys_cases a
  have ho : (a + BitVec.ofNat 32 n).toNat = a.toNat ||| n := by
    rw [offset_toNat, or_low ha hn]
    omega
  rw [← or_low (by omega) hn, phys, phys, BitVec.toNat_or, BitVec.toNat_or, ho, Nat.or_assoc,
    Nat.or_assoc, Nat.or_comm n]

theorem next_page_byte (a : Addr) (i : ℕ) (hi : 256 ≤ i) (hend : a.toNat + i < 0x08000000) :
    phys (a + 256) + BitVec.ofNat 32 (i-256) = phys a + BitVec.ofNat 32 i := by
  have hnext : (a + 256).toNat = a.toNat + 256 := by bv_omega
  have hp := phys_toNat a (by omega)
  have hp' := phys_toNat (a + 256) (by omega)
  rw [← BitVec.toNat_inj, offset_toNat, offset_toNat]
  omega

def target : Op → Set Addr
  | .fastErase a => block 256 a
  | .blockErase a => block 32768 a
  | .fastProgram words => {x | ∃ aw ∈ words, x - aw.1 < 4}
  | .undefined _ => Set.univ

/-- FASTERASE changes only its page, BER32 only its block, fast programming
only the words stored. -/
def Local (hw : Controller) : Prop := ∀ log op m, AgreeOff (target op) m (hw log op m).1

theorem replay_frame (hw : Controller) (T : Set Addr) (ops : List Op)
    (h : ∀ op ∈ ops, ∀ log m, AgreeOff T m (hw log op m).1) (m : Memory) (log : List Op) :
    AgreeOff T m (replay hw ops (m,log)).1 := by
  induction ops generalizing m log with
  | nil => exact agreeOff_refl T m
  | cons op ops ih =>
    exact agreeOff_trans (h op (by simp) log m) (ih (fun o ho => h o (by simp [ho])) _ _)

theorem performs_frame {hw : Controller} {T : Set Addr} {ops : List Op} {f f' : Fmc}
    (hp : Performs hw ops f f') (h : ∀ op ∈ ops, ∀ log m, AgreeOff T m (hw log op m).1) :
    AgreeOff T f.flash f'.flash := by
  have hm := congrArg Prod.fst hp.memory
  rw [show f'.flash = _ from hm]
  exact replay_frame hw T ops h f.flash f.log

theorem block_target (p : Addr) (src : Source) (x : Addr) :
    x ∈ target (.fastProgram (blockWords p src)) ↔ x - p < 256 := by
  simp only [target, blockWords, storedWords, Set.mem_ofPred_eq, List.mem_map, List.mem_range]
  constructor
  · rintro ⟨aw,⟨i,hi,rfl⟩,hx⟩
    bv_omega
  · intro hx
    refine ⟨_,⟨(x-p).toNat/4,by bv_omega,rfl⟩,?_⟩
    bv_omega

/-! ## Pages -/

def pagesFrom (a : Addr) : ℕ → List Addr
  | 0 => []
  | n+1 => a :: pagesFrom (a + 256) n

theorem mem_pagesFrom {a x : Addr} {n : ℕ} :
    x ∈ pagesFrom a n ↔ ∃ k < n, x = a + BitVec.ofNat 32 (256*k) := by
  induction n generalizing a with
  | zero => simp [pagesFrom]
  | succ n ih =>
    rw [pagesFrom, List.mem_cons, ih]
    constructor
    · rintro (rfl | ⟨k,hk,rfl⟩)
      · exact ⟨0,by omega,by simp⟩
      · exact ⟨k+1,by omega,by rw [Nat.mul_succ, BitVec.ofNat_add]; bv_omega⟩
    · rintro ⟨k,hk,rfl⟩
      cases k with
      | zero => left; simp
      | succ k =>
        exact Or.inr ⟨k,by omega,by rw [Nat.mul_succ, BitVec.ofNat_add]; bv_omega⟩

theorem mem_pages {a limit x : Addr} {h : limit ≤ 0xFFFFFF00} :
    x ∈ pages a limit h ↔ ∃ k, x.toNat = a.toNat + 256*k ∧ x < limit := by
  induction a using pages.induct limit h with
  | case1 a ha ih =>
    rw [pages, if_pos ha, List.mem_cons, ih]
    have hl : limit.toNat ≤ 0xFFFFFF00 := h
    have hstep : (a + flashSectorSize).toNat = a.toNat + 256 := by
      rw [show flashSectorSize = 256 from rfl]
      bv_omega
    constructor
    · rintro (rfl | ⟨k,hk,hx⟩)
      · exact ⟨0,by omega,ha⟩
      · exact ⟨k+1,by omega,hx⟩
    · rintro ⟨k,hk,hx⟩
      cases k with
      | zero => left; bv_omega
      | succ k => exact Or.inr ⟨k,by omega,hx⟩
  | case2 a ha =>
    rw [pages, if_neg ha]
    simp only [List.not_mem_nil, false_iff, not_exists, not_and]
    intro k hk
    bv_omega

/-- A range that does not wrap is visited page by page from its start. -/
theorem mem_pages_from {a limit : Addr} (h : limit ≤ 0xFFFFFF00) {n : ℕ}
    (hlo : a.toNat + 256*n < limit.toNat + 256) (hhi : limit.toNat ≤ a.toNat + 256*n) (x : Addr) :
    x ∈ pages a limit h ↔ x ∈ pagesFrom a n := by
  rw [mem_pages, mem_pagesFrom, BitVec.lt_def]
  constructor
  · rintro ⟨k,hk,hlt⟩
    refine ⟨k,by omega,?_⟩
    rw [← BitVec.toNat_inj, offset_toNat]
    omega
  · rintro ⟨k,hk,rfl⟩
    have hl : limit.toNat ≤ 0xFFFFFF00 := h
    rw [offset_toNat]
    exact ⟨k,by omega,by omega⟩

theorem page_aligned (wa : Addr) {limit : Addr} (h : limit ≤ 0xFFFFFF00) :
    ∀ a ∈ pages (pageAddr wa) limit h, a.toNat % 256 = 0 := by
  intro a ha
  obtain ⟨k,hk,-⟩ := mem_pages.mp ha
  have hpa := pageAddr_toNat wa
  omega

def eraseOps (as : List Addr) : List Op := as.map fun a => .fastErase (phys a)

theorem erase_pages_performs (hw : Controller) (as : List Addr) (f : Fmc) (h : Idle f) :
    ∃ done, done.Sublist as ∧ Performs hw (eraseOps done) f (erasePages hw as f).2 := by
  induction as generalizing f with
  | nil => exact ⟨[],List.Sublist.refl _,performs_nil hw h⟩
  | cons a as ih =>
    have hp := erase_page_performs hw a f h.quiet
    simp only [erasePages]
    split_ifs
    · obtain ⟨done,hs,hd⟩ := ih f h
      exact ⟨done,hs.cons _,hd⟩
    · obtain ⟨done,hs,hd⟩ := ih _ hp.idle
      exact ⟨a::done,hs.cons_cons _,performs_append hp hd⟩
    · exact ⟨[a],(List.nil_sublist _).cons_cons _,hp⟩

theorem erase_range_performs (hw : Controller) (n : ℕ) (a : Addr) (f : Fmc) (h : Idle f) :
    ∃ done, done.Sublist (pagesFrom a n) ∧
      Performs hw (eraseOps done) f (fmcErasePages hw n a f).2 := by
  induction n generalizing a f with
  | zero => exact ⟨[],List.Sublist.refl _,performs_nil hw h⟩
  | succ n ih =>
    have hp := erase_page_performs hw a f h.quiet
    simp only [fmcErasePages, pagesFrom]
    split_ifs
    · obtain ⟨done,hs,hd⟩ := ih (a + 256) _ hp.idle
      exact ⟨a::done,hs.cons_cons _,performs_append hp hd⟩
    · exact ⟨[a],(List.nil_sublist _).cons_cons _,hp⟩

/-! ## Blocks -/

def writeOps : ℕ → Addr → Source → List Op
  | 0, _, _ => []
  | n+1, a, src => .fastProgram (blockWords (phys a) src) :: writeOps n (a + 256) (src.advance 256)

theorem mem_writeOps {n : ℕ} {a : Addr} {src : Source} {op : Op} (h : op ∈ writeOps n a src) :
    ∃ k < n, ∃ src', op = .fastProgram (blockWords (phys (a + BitVec.ofNat 32 (256*k))) src') := by
  induction n generalizing a src with
  | zero => simp [writeOps] at h
  | succ n ih =>
    rw [writeOps, List.mem_cons] at h
    rcases h with rfl | h
    · exact ⟨0,by omega,src,by simp⟩
    · obtain ⟨k,hk,src',rfl⟩ := ih h
      refine ⟨k+1,by omega,src',?_⟩
      rw [Nat.mul_succ, BitVec.ofNat_add, add_comm (BitVec.ofNat 32 (256*k)), ← add_assoc]
      rfl

theorem write_loop_performs (hw : Controller) (a : Addr) (src : Source) (size : ℤ) (f : Fmc)
    (h : Idle f) (hu : Unlocked f) : ∃ n ≤ (size.toNat+255)/256,
      Performs hw (writeOps n a src) f (fmcWriteLoop hw a src size f).2 ∧
      ((fmcWriteLoop hw a src size f).1 = true → n = (size.toNat+255)/256) := by
  induction a, src, size, f using fmcWriteLoop.induct hw with
  | case1 a src size f hs r hr ih =>
    obtain ⟨hp,hv,-⟩ := write_block_performs hw a src f h hu
    obtain ⟨n,hn,hd,hc⟩ := ih hp.idle hv
    rw [fmcWriteLoop, if_pos hs]
    simp only [r] at hr hd hc
    simp only [hr, if_true]
    refine ⟨n+1,by omega,performs_append hp hd,fun h1 => ?_⟩
    have := hc h1
    omega
  | case2 a src size f hs r hr =>
    obtain ⟨hp,-,-⟩ := write_block_performs hw a src f h hu
    rw [fmcWriteLoop, if_pos hs]
    simp only [r] at hr
    simp only [hr]
    exact ⟨1,by omega,hp,fun h1 => by simp at h1⟩
  | case3 a src size f hs =>
    rw [fmcWriteLoop, if_neg hs]
    exact ⟨0,by omega,performs_nil hw h,fun _ => by omega⟩

theorem write_performs (hw : Controller) (a : Addr) (src : Source) (size : ℕ) (f : Fmc)
    (h : Idle f) : ∃ n ≤ (size+255)/256,
      Performs hw (writeOps n a src) f (fmcWrite hw a src size f).2 ∧
      ((fmcWrite hw a src size f).1 = true → n = (size+255)/256) := by
  obtain ⟨n,hn,hp,hc⟩ := write_loop_performs hw a src size (fmcFastUnlock f) (unlock_idle f h)
    (unlock_unlocked f)
  rw [Int.toNat_natCast] at hn hc
  exact ⟨n,hn,performs_append (unlock_performs hw h) hp,hc⟩

/-! ## Payloads -/

/-- The operations that a payload can make the controller execute. -/
inductive Commits (data : Source) (len : BitVec 16) (d : Dfu) : Op → Prop
  | sector (h : IsErasePage data len d) (ha : sectorAddr (commandAddr data) % 32768 = 0) :
      Commits data len d (.blockErase (phys (sectorAddr (commandAddr data))))
  | page (h : IsErasePage data len d) (ha : sectorAddr (commandAddr data) % 32768 ≠ 0)
      (k : ℕ) (hk : k < 16) : Commits data len d
        (.fastErase (phys (sectorAddr (commandAddr data) + BitVec.ofNat 32 (256*k))))
  | rewrite (h : Accepted len d) (a : Addr)
      (ha : a ∈ pages (pageAddr (writeAddr d)) (writeAddr d + len.setWidth 32) (flashEnd_le h.2)) :
      Commits data len d (.fastErase (phys a))
  | program (h : Accepted len d) (k : ℕ) (hk : k < (len.toNat+255)/256) (src : Source) :
      Commits data len d
        (.fastProgram (blockWords (phys (writeAddr d + BitVec.ofNat 32 (256*k))) src))

theorem erase_page_commits (hw : Controller) (data : Source) (len : BitVec 16) (d : Dfu) (f : Fmc)
    (h : Idle f) (he : IsErasePage data len d) : ∃ ops,
      Performs hw ops f (dfuErasePage hw (commandAddr data) d f).2 ∧
      ∀ op ∈ ops, Commits data len d op := by
  simp only [dfuErasePage, eraseSector]
  split_ifs with h1 h2 h3
  · exact ⟨[],performs_nil hw h,by simp⟩
  · exact ⟨_,erase_32k_performs hw _ f h.quiet,by simpa using Commits.sector he h2⟩
  · exact ⟨_,erase_32k_performs hw _ f h.quiet,by simpa using Commits.sector he h2⟩
  all_goals
    obtain ⟨done,hs,hp⟩ := erase_range_performs hw 16 (sectorAddr (commandAddr data)) f h
    refine ⟨eraseOps done,hp,fun op hop => ?_⟩
    obtain ⟨a,ha,rfl⟩ := List.mem_map.mp hop
    obtain ⟨k,hk,rfl⟩ := mem_pagesFrom.mp (hs.subset ha)
    exact Commits.page he h2 k hk

theorem write_block_commits (hw : Controller) (data : Source) (len : BitVec 16) (d : Dfu) (f : Fmc)
    (h : Idle f) (hb : IsBlock len d) : ∃ ops,
      Performs hw ops f (dfuWriteBlock hw data len d f).2 ∧
      ∀ op ∈ ops, Commits data len d op := by
  simp only [dfuWriteBlock]
  split_ifs with h1 h2 h3 h4
  · exact ⟨[],performs_nil hw h,by simp⟩
  all_goals
    obtain ⟨done,hs,hp⟩ := erase_pages_performs hw
      (pages (pageAddr (writeAddr d)) (writeAddr d + len.setWidth 32) (flashEnd_le h1)) f h
    have hpages : ∀ op ∈ eraseOps done, Commits data len d op := by
      intro op hop
      obtain ⟨a,ha,rfl⟩ := List.mem_map.mp hop
      exact Commits.rewrite ⟨hb,h1⟩ a (hs.subset ha)
  · exact ⟨_,hp,hpages⟩
  all_goals
    obtain ⟨n,hn,hq,-⟩ := write_performs hw (writeAddr d) data len.toNat _ hp.idle
    refine ⟨_,performs_append hp hq,fun op hop => ?_⟩
    rcases List.mem_append.mp hop with hop | hop
    · exact hpages op hop
    · obtain ⟨k,hk,src,rfl⟩ := mem_writeOps hop
      exact Commits.program ⟨hb,h1⟩ k (by omega) src

theorem data_commits (hw : Controller) (data : Source) (len : BitVec 16) (d : Dfu) (f : Fmc)
    (h : Idle f) : ∃ ops, Performs hw ops f (dfuHandleData hw data len d f).2 ∧
      ∀ op ∈ ops, Commits data len d op := by
  simp only [dfuHandleData, dfuCommand]
  split_ifs with h0 h1 h2 hb
  · exact ⟨[],performs_nil hw h,by simp⟩
  · exact erase_page_commits hw data len d f h ⟨h0.1,h0.2,h2⟩
  · exact ⟨[],performs_nil hw h,by simp⟩
  · exact write_block_commits hw data len d f h hb
  · exact ⟨[],performs_nil hw h,by simp⟩

/-- What the comparison with the end lets through ends low in the flash, or
starts so high that it wraps. -/
theorem accepted_range {len : BitVec 16} {d : Dfu} (h : Accepted len d) :
    (writeAddr d).toNat + len.toNat ≤ 0x40000 ∨
      0x100000000 ≤ (writeAddr d).toNat + len.toNat := by
  have hf : flashEnd = 0x40000 := rfl
  have h2 := h.2
  rw [hf] at h2
  bv_omega

/-- The bytes a block covers, rounded up to the size programmed at a time. -/
def rounded (len : BitVec 16) : ℕ := (len.toNat+255)/256*256

/-- An address a block can change lies in the page of a covered byte, seen
through the alias. Only what wraps is not moved by the alias, and stays apart. -/
def CoveredBy (y x : Addr) : Prop := x.toNat / 256 = (y.toNat + 0x08000000) / 256 ∨
  x = y ∧ (x.toNat < 0x10000 ∨ 0xFFFF0000 ≤ x.toNat)

theorem rewrite_covered {len : BitVec 16} {d : Dfu} (h : Accepted len d) {a x : Addr}
    (ha : a ∈ pages (pageAddr (writeAddr d)) (writeAddr d + len.setWidth 32) (flashEnd_le h.2))
    (hx : x ∈ block 256 (phys a)) :
    ∃ i < rounded len, CoveredBy (writeAddr d + BitVec.ofNat 32 i) x := by
  obtain ⟨k,hk,hlt⟩ := mem_pages.mp ha
  have hw := pageAddr_toNat (writeAddr d)
  have hr := accepted_range h
  have h0 : 0 < len.toNat := h.1.2
  have hlim : a.toNat < (writeAddr d).toNat + len.toNat ∧
      (writeAddr d).toNat + len.toNat ≤ 0x40000 := by
    bv_omega
  have hp := phys_toNat a (by omega)
  rw [mem_block] at hx
  -- the first page can start before the block does
  refine ⟨a.toNat - (writeAddr d).toNat,by unfold rounded; omega,Or.inl ?_⟩
  rw [offset_toNat]
  omega

theorem program_covered {len : BitVec 16} {d : Dfu} (h : Accepted len d) {k : ℕ}
    (hk : k < (len.toNat+255)/256) {x : Addr}
    (hx : x - phys (writeAddr d + BitVec.ofNat 32 (256*k)) < 256) :
    ∃ i < rounded len, CoveredBy (writeAddr d + BitVec.ofNat 32 i) x := by
  have hr := accepted_range h
  have hlen := len.isLt
  have hp := phys_cases (writeAddr d + BitVec.ofNat 32 (256*k))
  rw [offset_toNat] at hp
  generalize phys (writeAddr d + BitVec.ofNat 32 (256*k)) = p at hx hp
  have hxp : x.toNat = (p.toNat + (x-p).toNat) % 2^32 := by bv_omega
  have hj : (x-p).toNat < 256 := hx
  refine ⟨256*k+(x-p).toNat,by unfold rounded; omega,?_⟩
  unfold CoveredBy
  rw [← BitVec.toNat_inj, offset_toNat]
  omega

theorem verified_covered {len : BitVec 16} {d : Dfu} (h : Accepted len d) {i : ℕ}
    (hi : i < len.toNat) :
    CoveredBy (writeAddr d + BitVec.ofNat 32 i) (phys (writeAddr d) + BitVec.ofNat 32 i) := by
  have hr := accepted_range h
  have hlen := len.isLt
  have hp := phys_cases (writeAddr d)
  unfold CoveredBy
  rw [← BitVec.toNat_inj, offset_toNat, offset_toNat]
  omega

theorem commits_covered {data : Source} {len : BitVec 16} {d : Dfu} (h : IsBlock len d)
    {op : Op} (hop : Commits data len d op) {x : Addr} (hx : x ∈ target op) :
    ∃ i < rounded len, CoveredBy (writeAddr d + BitVec.ofNat 32 i) x := by
  have hne : d.dfuBlockNum ≠ 0 := by
    have := h.1
    bv_omega
  cases hop with
  | sector he => exact absurd he.1 hne
  | page he => exact absurd he.1 hne
  | rewrite hacc a ha => exact rewrite_covered hacc ha hx
  | program hacc k hk src => exact program_covered hacc hk ((block_target _ src x).mp hx)

/-! ## Two controllers in lockstep

Of two controllers that a relation holds together, both answer every step alike,
and the relation holds again behind it. Then it goes for the loops too. -/

section Lockstep
variable {hw : Controller} (R : Fmc → Fmc → Prop)

theorem erase_pages_lockstep (as : List Addr)
    (hcheck : ∀ a ∈ as, ∀ f f', R f f' → fmcPageIsErased f.flash a = fmcPageIsErased f'.flash a)
    (herase : ∀ a ∈ as, ∀ f f', R f f' → (fmcErasePage hw a f).1 = (fmcErasePage hw a f').1 ∧
      R (fmcErasePage hw a f).2 (fmcErasePage hw a f').2) {f f' : Fmc} (h : R f f') :
    (erasePages hw as f).1 = (erasePages hw as f').1 ∧
      R (erasePages hw as f).2 (erasePages hw as f').2 := by
  induction as generalizing f f' with
  | nil => exact ⟨rfl,h⟩
  | cons a as ih =>
    have hrest : ∀ g g', R g g' → (erasePages hw as g).1 = (erasePages hw as g').1 ∧
        R (erasePages hw as g).2 (erasePages hw as g').2 :=
      fun g g' hg => ih (fun p hp => hcheck p (by simp [hp])) (fun p hp => herase p (by simp [hp])) hg
    obtain ⟨hr,ht⟩ := herase a (by simp) f f' h
    simp only [erasePages, ← hr, ← hcheck a (by simp) f f' h]
    split_ifs
    · exact hrest _ _ h
    · exact hrest _ _ ht
    · exact ⟨rfl,ht⟩

/-- `S n` is what the two sources have in common when `n` blocks are left. -/
theorem write_loop_lockstep (S : ℕ → Addr → Source → Source → Prop)
    (hidle : ∀ f f', R f f' → Idle f ∧ Idle f')
    (hblock : ∀ n a src src' f f', S (n+1) a src src' → R f f' → Unlocked f → Unlocked f' →
      (fmcWriteBlock hw a src f).1 = (fmcWriteBlock hw a src' f').1 ∧
        R (fmcWriteBlock hw a src f).2 (fmcWriteBlock hw a src' f').2)
    (hnext : ∀ n a src src', S (n+1) a src src' →
      S n (a + 256) (src.advance 256) (src'.advance 256))
    (n : ℕ) (a : Addr) (src src' : Source) (hs : S n a src src') (size : ℤ)
    (hn : n = (size.toNat+255)/256) {f f' : Fmc} (h : R f f') (hu : Unlocked f)
    (hu' : Unlocked f') :
    (fmcWriteLoop hw a src size f).1 = (fmcWriteLoop hw a src' size f').1 ∧
      R (fmcWriteLoop hw a src size f).2 (fmcWriteLoop hw a src' size f').2 := by
  induction n generalizing a src src' size f f' with
  | zero =>
    have hsize : ¬ 0 < size := by omega
    rw [fmcWriteLoop, if_neg hsize, fmcWriteLoop, if_neg hsize]
    exact ⟨rfl,h⟩
  | succ n ih =>
    have hsize : 0 < size := by omega
    obtain ⟨hi,hi'⟩ := hidle f f' h
    obtain ⟨hr,ht⟩ := hblock n a src src' f f' hs h hu hu'
    have hv := (write_block_performs hw a src f hi hu).2.1
    have hv' := (write_block_performs hw a src' f' hi' hu').2.1
    rw [write_loop_step hw a src size f hsize, write_loop_step hw a src' size f' hsize, ← hr]
    split_ifs
    · exact ih _ _ _ (hnext n a src src' hs) _ (by omega) ht hv hv'
    · exact ⟨rfl,ht⟩

end Lockstep

end Swindle.FlashFrames
