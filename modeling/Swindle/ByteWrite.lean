import Swindle.FlashProgress

/-!
# Block writes, byte by byte

`fmc_write` sees pages and words. For whoever calls it there are only bytes: as
many blocks as the controller has stored are in the flash, whichever of the two
copy loops has filled its cache, and everything else is as it was.
-/

set_option autoImplicit false

namespace Swindle.ByteWrite
open Swindle.WordMemory Swindle.FlashController Swindle.FlashOperations Swindle.FlashFrames
open Swindle.IdealFlash Swindle.FlashProgress

/-- A program of 64 words into an erased page stores them at their addresses if it
reports success, and nothing if it does not. -/
structure StoresOrNot (hw : Controller) : Prop where
  stores : ∀ log p src m, p.toNat % 256 = 0 → erasedWords m p = true →
    (hw log (.fastProgram (blockWords p src)) m).2.ok = true →
    (hw log (.fastProgram (blockWords p src)) m).1 = storeAll (blockWords p src) m
  keeps : ∀ log p src m, p.toNat % 256 = 0 → erasedWords m p = true →
    (hw log (.fastProgram (blockWords p src)) m).2.ok = false →
    (hw log (.fastProgram (blockWords p src)) m).1 = m

def place (start : Addr) (j : ℕ) : Addr := phys (start + BitVec.ofNat 32 j)

def Apart (start : Addr) (n : ℕ) : Prop := ∀ i < n, ∀ j < n, place start i = place start j → i = j

/-- The first `n` bytes of the source are in the flash, and no other byte has changed. -/
structure Programmed (start : Addr) (src : Source) (n : ℕ) (m m' : Memory) : Prop where
  bytes : ∀ j < n, m' (place start j) = src.byte j
  frame : ∀ x, (∀ j < n, x ≠ place start j) → m' x = m x

def answer (hw : Controller) : ℕ → Addr → Source → Memory × List Op → Bool
  | 0, a, src, s => (hw s.2 (.fastProgram (blockWords (phys a) src)) s.1).2.ok
  | k+1, a, src, s =>
    answer hw k (a + 256) (src.advance 256)
      (replay hw [.fastProgram (blockWords (phys a) src)] s)

structure Outcome (hw : Controller) (start : Addr) (src : Source) (n : ℕ) (f : Fmc)
    (r : Bool × Fmc) (k : ℕ) : Prop where
  within : k ≤ n
  stored : ∀ j < k, answer hw j start src (f.flash,f.log) = true
  failed : k < n → answer hw k start src (f.flash,f.log) = false
  result : r.1 = true ↔ k = n
  flash : Programmed start src (256*k) f.flash r.2.flash
  log : r.2.log = f.log ++ writeOps (min (k+1) n) start src

theorem place_next (a : Addr) (j : ℕ) : place (a + 256) j = place a (256+j) := by
  rw [place, place, ← offset_offset a 256 j]
  rfl

/-- The alias does not tear a page. -/
theorem place_page {a : Addr} (ha : a.toNat % 256 = 0) {j : ℕ} (hj : j < 256) :
    place a j = phys a + BitVec.ofNat 32 j := by
  obtain ⟨base,c,hbase,hc,rfl⟩ : ∃ base c, base.toNat % 4096 = 0 ∧ c + 256 ≤ 4096 ∧
      a = base + BitVec.ofNat 32 c := by
    refine ⟨a - BitVec.ofNat 32 (a.toNat % 4096),a.toNat % 4096,?_,by omega,by bv_omega⟩
    rw [BitVec.toNat_sub, BitVec.toNat_ofNat]
    omega
  have h0 := phys_offset base c hbase (by omega)
  have hj := phys_offset base (c+j) hbase (by omega)
  have hlt := (phys (base + BitVec.ofNat 32 (c+j))).isLt
  rw [place, offset_offset, ← BitVec.toNat_inj, offset_toNat, h0, hj]
  omega

/-- Up to the size of the alias no two places coincide. -/
theorem apart_small (start : Addr) {n : ℕ} (hn : n ≤ 0x08000000) : Apart start n := by
  intro i hi j hj h
  have hpi := phys_cases (start + BitVec.ofNat 32 i)
  have hpj := phys_cases (start + BitVec.ofNat 32 j)
  rw [place, place] at h
  rw [h, offset_toNat] at hpi
  rw [offset_toNat] at hpj
  omega

theorem page_erased_place {a : Addr} (ha : a.toNat % 256 = 0) (m : Memory) :
    fmcPageIsErased m a = true ↔ ∀ j < 256, m (place a j) = erasedByte (place a j) := by
  have hp := phys_cases a
  rw [page_is_erased_iff a ha]
  constructor
  · intro h j hj
    rw [place_page ha hj]
    exact h _ ((mem_page_offset (by omega)).mpr ⟨j,hj,rfl⟩)
  · intro h x hx
    obtain ⟨j,hj,rfl⟩ := (mem_page_offset (by omega)).mp hx
    rw [← place_page ha hj]
    exact h j hj

theorem programmed_nothing (start : Addr) (src : Source) (m : Memory) :
    Programmed start src 0 m m := ⟨by simp,fun _ _ => rfl⟩

theorem block_programmed_bytes {a : Addr} (ha : a.toNat % 256 = 0) (src : Source) (m : Memory) :
    Programmed a src 256 m (storeAll (blockWords (phys a) src) m) := by
  constructor
  · intro j hj
    rw [place_page ha hj]
    exact block_byte (phys a) src m j hj
  · intro x hx
    apply storeAll_frame
    rw [block_target]
    intro hlt
    apply hx (x - phys a).toNat hlt
    rw [place_page ha hlt, BitVec.ofNat_toNat, BitVec.setWidth_eq]
    bv_omega

/-- A block, and what follows it. -/
theorem programmed_next {a : Addr} {src : Source} {n : ℕ} {m m' m'' : Memory}
    (hap : Apart a (256+n)) (h : Programmed a src 256 m m')
    (h' : Programmed (a + 256) (src.advance 256) n m' m'') : Programmed a src (256+n) m m'' := by
  constructor
  · intro j hj
    by_cases hlt : j < 256
    · rw [h'.frame, h.bytes j hlt]
      intro i hi he
      rw [place_next] at he
      have hij := hap j hj (256+i) (by omega) he
      omega
    · have hb := h'.bytes (j-256) (by omega)
      have hj' : 256 + (j-256) = j := by omega
      rw [place_next, hj'] at hb
      rw [hb, advance_byte src (Nat.not_lt.mp hlt)]
  · intro x hx
    rw [h'.frame x, h.frame x]
    · exact fun j hj => hx j (by omega)
    · intro j hj
      rw [place_next]
      exact hx (256+j) (by omega)

theorem later_pages_erased {a : Addr} {src : Source} {n : ℕ} {m m' : Memory}
    (ha : a.toNat % 256 = 0) (hap : Apart a (256*(n+1))) (h : Programmed a src 256 m m')
    (he : ∀ i < n+1, fmcPageIsErased m (a + BitVec.ofNat 32 (256*i)) = true) :
    ∀ i < n, fmcPageIsErased m' (a + 256 + BitVec.ofNat 32 (256*i)) = true := by
  intro i hi
  have hpage : a + 256 + BitVec.ofNat 32 (256*i) = a + BitVec.ofNat 32 (256*(i+1)) := by
    rw [Nat.mul_succ, Nat.add_comm, ← offset_offset a 256 (256*i)]
    rfl
  have halign : (a + BitVec.ofNat 32 (256*(i+1))).toNat % 256 = 0 := by
    rw [offset_toNat]
    omega
  have hplace : ∀ j, place (a + BitVec.ofNat 32 (256*(i+1))) j = place a (256*(i+1)+j) := by
    intro j
    rw [place, offset_offset, place]
  have hbefore := (page_erased_place halign m).mp (he (i+1) (by omega))
  rw [hpage, page_erased_place halign]
  intro j hj
  rw [← hbefore j hj]
  apply h.frame
  intro k hk heq
  rw [hplace] at heq
  have hkj := hap _ (by omega) _ (by omega) heq
  omega

/-- The first block fails, and the write stops. -/
theorem outcome_failed {hw : Controller} {a : Addr} {src : Source} (n : ℕ) {f f' : Fmc}
    (hp : Performs hw [.fastProgram (blockWords (phys a) src)] f f')
    (hans : answer hw 0 a src (f.flash,f.log) = false) (hkept : f'.flash = f.flash) :
    Outcome hw a src (n+1) f (false,f') 0 where
  within := Nat.zero_le _
  stored j hj := absurd hj (Nat.not_lt_zero j)
  failed _ := hans
  result := by simp
  flash := by
    rw [hkept]
    exact programmed_nothing a src _
  log := by
    rw [performs_log hp]
    simp [writeOps]

/-- One block stored, and then the rest of the write. -/
theorem outcome_next {hw : Controller} {a : Addr} {src : Source} {n k : ℕ} {f f' : Fmc}
    {r : Bool × Fmc} (hap : Apart a (256*(n+1)))
    (hp : Performs hw [.fastProgram (blockWords (phys a) src)] f f')
    (hok : answer hw 0 a src (f.flash,f.log) = true) (h : Programmed a src 256 f.flash f'.flash)
    (hrest : Outcome hw (a + 256) (src.advance 256) n f' r k) : Outcome hw a src (n+1) f r (k+1) := by
  have hanswer : ∀ j, answer hw (j+1) a src (f.flash,f.log) =
      answer hw j (a + 256) (src.advance 256) (f'.flash,f'.log) := by
    intro j
    rw [answer, hp.memory]
  have hwithin := hrest.within
  refine ⟨by omega,fun j hj => ?_,fun hk => ?_,?_,?_,?_⟩
  · cases j with
    | zero => exact hok
    | succ j =>
      rw [hanswer]
      exact hrest.stored j (by omega)
  · rw [hanswer]
    exact hrest.failed (by omega)
  · rw [hrest.result]
    omega
  · rw [Nat.mul_succ, Nat.add_comm]
    refine programmed_next (fun i hi j hj => hap i (by omega) j (by omega)) h hrest.flash
  · have hmin : min (k+1+1) (n+1) = min (k+1) n + 1 := by omega
    rw [hrest.log, performs_log hp, hmin, writeOps, List.append_assoc]
    rfl

section Write
variable {hw : Controller} (hs : StoresOrNot hw)
include hs

theorem write_loop_bytes (n : ℕ) (a : Addr) (src : Source) (size : ℤ)
    (hn : n = (size.toNat+255)/256) (ha : a.toNat % 256 = 0) (hap : Apart a (256*n)) (f : Fmc)
    (h : Idle f) (hu : Unlocked f)
    (he : ∀ i < n, fmcPageIsErased f.flash (a + BitVec.ofNat 32 (256*i)) = true) :
    ∃ k, Outcome hw a src n f (fmcWriteLoop hw a src size f) k := by
  induction n generalizing a src size f with
  | zero =>
    rw [fmcWriteLoop, if_neg (by omega)]
    exact ⟨0,le_refl 0,by simp,by simp,by simp,programmed_nothing a src _,by simp [writeOps]⟩
  | succ n ih =>
    have hphys := phys_cases a
    have hpage := he 0 (by omega)
    rw [Nat.mul_zero, BitVec.add_zero] at hpage
    obtain ⟨hp,hv,hr⟩ := write_block_performs hw a src f h hu
    have hans : (fmcWriteBlock hw a src f).1 = answer hw 0 a src (f.flash,f.log) := hr
    rw [write_loop_step hw a src size f (by omega)]
    cases hok : (fmcWriteBlock hw a src f).1 with
    | false =>
      have hkept : (fmcWriteBlock hw a src f).2.flash = f.flash := by
        rw [performs_flash hp]
        exact hs.keeps _ _ _ _ (by omega) hpage (hr.symm.trans hok)
      exact ⟨0,outcome_failed n hp (hans.symm.trans hok) hkept⟩
    | true =>
      have hflash : (fmcWriteBlock hw a src f).2.flash =
          storeAll (blockWords (phys a) src) f.flash := by
        rw [performs_flash hp]
        exact hs.stores _ _ _ _ (by omega) hpage (hr.symm.trans hok)
      have hblock := block_programmed_bytes ha src f.flash
      rw [← hflash] at hblock
      have hrest : Apart (a + 256) (256*n) := by
        intro i hi j hj hij
        rw [place_next, place_next] at hij
        have := hap _ (by omega) _ (by omega) hij
        omega
      obtain ⟨k,hk⟩ := ih (a + 256) (src.advance 256) (size - 256) (by omega)
        (by bv_omega) hrest _ hp.idle hv (later_pages_erased ha hap hblock he)
      exact ⟨k+1,outcome_next hap hp (hans.symm.trans hok) hblock hk⟩

/-- `fmc_write` stores the bytes of its source block by block, up to the first block
that the controller fails on, and tells whether that was all of them. -/
theorem write_is_bytewise (start : Addr) (src : Source) (size : ℤ) (f : Fmc) (h : Idle f)
    (hstart : start.toNat % 256 = 0) (hap : Apart start (256*((size.toNat+255)/256)))
    (he : ∀ i < (size.toNat+255)/256,
      fmcPageIsErased f.flash (start + BitVec.ofNat 32 (256*i)) = true) :
    ∃ k, Outcome hw start src ((size.toNat+255)/256) f (fmcWrite hw start src size f) k := by
  obtain ⟨k,hk⟩ := write_loop_bytes hs _ start src size rfl hstart hap (fmcFastUnlock f)
    (unlock_idle f h) (unlock_unlocked f) he
  exact ⟨k,⟨hk.within,hk.stored,hk.failed,hk.result,hk.flash,hk.log⟩⟩

end Write

def oneBlock : Controller := fun log op m =>
  if log = [] then perfect log op m else (m, ⟨true,false,false⟩)

theorem oneBlock_stores : StoresOrNot oneBlock := by
  constructor
  · intro log p src m _ _ hok
    unfold oneBlock at hok ⊢
    split_ifs at hok ⊢
    · rfl
    · cases hok
  · intro log p src m _ _ hok
    unfold oneBlock at hok ⊢
    split_ifs at hok ⊢
    · cases hok
    · rfl

/-- Two blocks from an odd source address, to a controller that takes one. -/
theorem odd_source_written :
    let src : Source := ⟨0x20000001,fun i => BitVec.ofNat 8 i⟩
    let f := resetFmc erasedByte
    ∃ k, Outcome oneBlock 0x4000 src 2 f (fmcWrite oneBlock 0x4000 src 300 f) k := by
  have hstart : (0x4000 : Addr).toNat = 0x4000 := rfl
  refine write_is_bytewise oneBlock_stores 0x4000 _ 300 _ (reset_idle _) (by decide)
    (apart_small _ (by decide)) ?_
  intro i _
  rw [page_is_erased_iff _ (by rw [offset_toNat, hstart]; omega)]
  exact fun _ _ => rfl

end Swindle.ByteWrite
