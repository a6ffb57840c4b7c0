import Swindle.FlashFrames

/-!
# What the hardware is assumed to do

The assumptions on the controller that results name, and a controller that
meets all of them: it executes every operation and reports success.
-/

set_option autoImplicit false

namespace Swindle.IdealFlash
open Swindle.WordMemory Swindle.FlashController Swindle.FlashOperations Swindle.FlashFrames
open Swindle.DfuHandlers

def erasedByte (x : Addr) : Byte := byteOf erasedWord (x.toNat % 4)

def fill (T : Set Addr) [DecidablePred (· ∈ T)] (m : Memory) : Memory :=
  fun x => if x ∈ T then erasedByte x else m x

/-- A fast erase sets exactly its page to erased words. A fast program of 64
words into an erased page stores each word and changes nothing else. -/
structure Ideal (hw : Controller) : Prop where
  erase : ∀ log a m, (hw log (.fastErase a) m).1 = fill (block 256 a) m
  program : ∀ log p src m, p.toNat % 256 = 0 → erasedWords m p = true →
    (hw log (.fastProgram (blockWords p src)) m).1 = storeAll (blockWords p src) m

/-- A block erase that reports success has erased its 32 KB block. -/
def BlockEraseSound (hw : Controller) : Prop :=
  ∀ log a m, (hw log (.blockErase a) m).2.ok = true →
    ∀ x ∈ block 32768 a, (hw log (.blockErase a) m).1 x = erasedByte x

/-- An operation's outcome depends on what its target holds, not on history or
on memory elsewhere. -/
def Memoryless (hw : Controller) : Prop :=
  ∀ log log' op m m', AgreeOn (target op) m m' →
    AgreeOn (target op) (hw log op m).1 (hw log' op m').1 ∧
      (hw log op m).2.ok = (hw log' op m').2.ok

def perfect : Controller := fun _ op m =>
  match op with
  | .fastErase a => (fill (block 256 a) m, ⟨false,false,true⟩)
  | .blockErase a => (fill (block 32768 a) m, ⟨false,false,true⟩)
  | .fastProgram words => (storeAll words m, ⟨false,false,true⟩)
  | .undefined _ => (m, ⟨true,false,true⟩)

theorem perfect_ideal : Ideal perfect := ⟨fun _ _ _ => rfl,fun _ _ _ _ _ _ => rfl⟩

theorem perfect_block_sound : BlockEraseSound perfect := fun _ _ _ _ _ hx => if_pos hx

theorem fill_frame (T : Set Addr) [DecidablePred (· ∈ T)] (m : Memory) :
    AgreeOff T m (fill T m) := fun _ hx => if_neg hx

theorem storeAll_frame (words : List (Addr × Word)) (m : Memory) :
    AgreeOff (target (.fastProgram words)) m (storeAll words m) := by
  induction words generalizing m with
  | nil => exact agreeOff_refl _ m
  | cons aw words ih =>
    intro x hx
    have hw : ¬ x - aw.1 < 4 := fun h => hx ⟨aw,by simp,h⟩
    have hout : x ∉ target (.fastProgram words) := by
      rintro ⟨bw,hb,hlt⟩
      exact hx ⟨bw,by simp [hb],hlt⟩
    rw [storeAll, ih _ x hout, writeWord, if_neg hw]

theorem perfect_local : Local perfect := by
  intro log op m
  cases op with
  | fastErase a => exact fill_frame (block 256 a) m
  | blockErase a => exact fill_frame (block 32768 a) m
  | fastProgram words => exact storeAll_frame words m
  | undefined ctl => exact agreeOff_refl _ m

theorem storeAll_agree (T : Set Addr) (words : List (Addr × Word)) (m m' : Memory)
    (h : AgreeOn T m m') : AgreeOn T (storeAll words m) (storeAll words m') := by
  induction words generalizing m m' with
  | nil => exact h
  | cons aw words ih =>
    apply ih
    intro x hx
    simp only [writeWord, h x hx]

theorem perfect_memoryless : Memoryless perfect := by
  intro log log' op m m' h
  cases op with
  | fastErase a => exact ⟨fun x hx => (if_pos hx).trans (if_pos hx).symm,rfl⟩
  | blockErase a => exact ⟨fun x hx => (if_pos hx).trans (if_pos hx).symm,rfl⟩
  | fastProgram words => exact ⟨storeAll_agree _ words m m' h,rfl⟩
  | undefined ctl => exact ⟨h,rfl⟩

/-! ## Erased pages -/

def Erased (T : Set Addr) (m : Memory) : Prop := ∀ x ∈ T, m x = erasedByte x

/-- What the page check reads is that every byte of the page is erased. -/
theorem erased_words_iff (p : Addr) (hp : p.toNat % 256 = 0) (m : Memory) :
    erasedWords m p = true ↔ Erased (block 256 p) m := by
  have hbyte : ∀ i k, i < 64 → k < 4 →
      erasedByte (p + BitVec.ofNat 32 (4*i+k)) = byteOf erasedWord k := by
    intro i k hi hk
    have hpl := p.isLt
    rw [erasedByte, offset_toNat]
    congr 1
    omega
  simp only [erasedWords, List.all_eq_true, List.mem_range, beq_iff_eq, readWord_eq_iff]
  constructor
  · intro h x hx
    obtain ⟨n,hn,rfl⟩ := (mem_page_offset hp).mp hx
    rw [show n = 4*(n/4) + n%4 by omega, hbyte _ _ (by omega) (by omega)]
    exact h _ (by omega) _ (by omega)
  · intro h i hi k hk
    rw [← hbyte i k hi hk]
    exact h _ ((mem_page_offset hp).mpr ⟨_,by omega,rfl⟩)

theorem page_is_erased_iff (a : Addr) (ha : a.toNat % 256 = 0) (m : Memory) :
    fmcPageIsErased m a = true ↔ Erased (block 256 (phys a)) m := by
  have hp := phys_cases a
  exact erased_words_iff (phys a) (by omega) m

def pageSet (as : List Addr) : Set Addr := {x | ∃ a ∈ as, x ∈ block 256 (phys a)}

/-- A memory in which the set has been erased and the rest is as before. -/
structure ErasedTo (T : Set Addr) (m m' : Memory) : Prop where
  erased : Erased T m'
  frame : AgreeOff T m m'

theorem erased_page_kept {hw : Controller} (hi : Ideal hw) (a : Addr) (f : Fmc) (h : Idle f) :
    ErasedTo (block 256 (phys a)) f.flash (fmcErasePage hw a f).2.flash := by
  rw [performs_flash (erase_page_performs hw a f h.quiet), hi.erase]
  exact ⟨fun _ hx => if_pos hx,fill_frame _ _⟩

theorem erase_pages_ideal {hw : Controller} (hi : Ideal hw) (as : List Addr)
    (ha : ∀ a ∈ as, a.toNat % 256 = 0) (f : Fmc) (h : Idle f)
    (hr : (erasePages hw as f).1 = true) :
    ErasedTo (pageSet as) f.flash (erasePages hw as f).2.flash := by
  induction as generalizing f with
  | nil =>
    refine ⟨?_,agreeOff_refl _ _⟩
    rintro x ⟨a,hm,-⟩
    cases hm
  | cons a as ih =>
    have hstep : ∃ g, Idle g ∧ ErasedTo (block 256 (phys a)) f.flash g.flash ∧
        erasePages hw (a::as) f = erasePages hw as g := by
      simp only [erasePages] at hr ⊢
      split_ifs at hr ⊢ with h1 h2
      · have he := (page_is_erased_iff a (ha a (by simp)) f.flash).mp h1
        exact ⟨f,h,⟨he,agreeOff_refl _ _⟩,rfl⟩
      · exact ⟨_,(erase_page_performs hw a f h.quiet).idle,erased_page_kept hi a f h,rfl⟩
    obtain ⟨g,hg,hpage,heq⟩ := hstep
    rw [heq] at hr ⊢
    have hrest := ih (fun a' ha' => ha a' (by simp [ha'])) g hg hr
    constructor
    · intro x hx
      by_cases hin : x ∈ pageSet as
      · exact hrest.erased x hin
      · obtain ⟨c,hc,hxc⟩ := hx
        rcases List.mem_cons.mp hc with rfl | hc
        · rw [hrest.frame x hin]
          exact hpage.erased x hxc
        · exact absurd ⟨c,hc,hxc⟩ hin
    · intro x hx
      have hout : x ∉ pageSet as := by
        rintro ⟨c,hc,hxc⟩
        exact hx ⟨c,by simp [hc],hxc⟩
      rw [hrest.frame x hout]
      exact hpage.frame x (fun hxa => hx ⟨a,by simp,hxa⟩)

theorem block_programmed {hw : Controller} (hi : Ideal hw) (a : Addr) (src : Source) (f : Fmc)
    (h : Idle f) (hu : Unlocked f) (ha : a.toNat % 256 = 0)
    (he : Erased (block 256 (phys a)) f.flash) :
    (fmcWriteBlock hw a src f).2.flash = storeAll (blockWords (phys a) src) f.flash ∧
      AgreeOff (block 256 (phys a)) f.flash (fmcWriteBlock hw a src f).2.flash := by
  have hphys : (phys a).toNat % 256 = 0 := by
    have := phys_cases a
    omega
  have hstored : (fmcWriteBlock hw a src f).2.flash =
      storeAll (blockWords (phys a) src) f.flash := by
    obtain ⟨hp,-,-⟩ := write_block_performs hw a src f h hu
    rw [performs_flash hp]
    exact hi.program _ _ _ _ hphys ((erased_words_iff _ hphys _).mpr he)
  refine ⟨hstored,?_⟩
  rw [hstored]
  apply agreeOff_mono _ (storeAll_frame _ _)
  intro x hx
  rw [block_target] at hx
  rw [mem_block]
  bv_omega

theorem rest_erased {a : Addr} {as : List Addr} {m m' : Memory}
    (hd : ∀ c ∈ as, Disjoint (block 256 (phys a)) (block 256 (phys c)))
    (he : Erased (pageSet (a::as)) m) (hf : AgreeOff (block 256 (phys a)) m m') :
    Erased (pageSet as) m' := by
  rintro x ⟨c,hc,hxc⟩
  rw [hf x (fun hxa => Set.disjoint_left.mp (hd c hc) hxa hxc)]
  exact he x ⟨c,List.mem_cons_of_mem a hc,hxc⟩

theorem write_loop_ideal {hw : Controller} (hi : Ideal hw) (n : ℕ) (a : Addr) (src : Source)
    (size : ℤ) (hn : n = (size.toNat+255)/256) (ha : a.toNat % 256 = 0) (f : Fmc) (h : Idle f)
    (hu : Unlocked f) (he : Erased (pageSet (pagesFrom a n)) f.flash)
    (hd : (pagesFrom a n).Pairwise fun p q => Disjoint (block 256 (phys p)) (block 256 (phys q))) :
    AgreeOff (pageSet (pagesFrom a n)) f.flash (fmcWriteLoop hw a src size f).2.flash := by
  induction n generalizing a src size f with
  | zero =>
    have hs : ¬ 0 < size := by omega
    rw [fmcWriteLoop, if_neg hs]
    exact agreeOff_refl _ _
  | succ n ih =>
    have hs : 0 < size := by omega
    obtain ⟨hp,hv,-⟩ := write_block_performs hw a src f h hu
    rw [pagesFrom] at he hd ⊢
    rw [List.pairwise_cons] at hd
    obtain ⟨-,hflash⟩ := block_programmed hi a src f h hu ha (fun x hx => he x ⟨a,by simp,hx⟩)
    have hrest := rest_erased hd.1 he hflash
    have hhead : AgreeOff (pageSet (a :: pagesFrom (a + 256) n)) f.flash
        (fmcWriteBlock hw a src f).2.flash :=
      agreeOff_mono (fun x hx => ⟨a,by simp,hx⟩) hflash
    rw [write_loop_step hw a src size f hs]
    split_ifs
    · apply agreeOff_trans hhead
      apply agreeOff_mono _ (ih (a + 256) _ _ (by omega) (by bv_omega) _ hp.idle hv hrest hd.2)
      rintro x ⟨c,hc,hxc⟩
      exact ⟨c,List.mem_cons_of_mem a hc,hxc⟩
    · exact hhead

theorem shifted_disjoint {a : Addr} {n : ℕ}
    (h : ∀ k < n, (phys (a + BitVec.ofNat 32 (256*k))).toNat = (phys a).toNat + 256*k) :
    (pagesFrom a n).Pairwise fun p q => Disjoint (block 256 (phys p)) (block 256 (phys q)) := by
  induction n generalizing a with
  | zero => exact List.Pairwise.nil
  | succ n ih =>
    have hstep : ∀ k, a + 256 + BitVec.ofNat 32 (256*k) = a + BitVec.ofNat 32 (256*(k+1)) := by
      intro k
      rw [show (256 : Addr) = BitVec.ofNat 32 256 from rfl, offset_offset, Nat.mul_succ,
        Nat.add_comm 256]
    rw [pagesFrom, List.pairwise_cons]
    constructor
    · intro c hc
      obtain ⟨k,hk,rfl⟩ := mem_pagesFrom.mp hc
      have hpc := h (k+1) (by omega)
      rw [hstep, Set.disjoint_left]
      intro x hxa hxc
      rw [mem_block] at hxa hxc
      omega
    · apply ih
      intro k hk
      have hnext := h 1 (by omega)
      have hlast := h (k+1) (by omega)
      have h256 : a + 256 = a + BitVec.ofNat 32 (256*1) := rfl
      rw [hstep, h256]
      omega

/-- The `n` bytes from a flash address on, in the memory behind the controller. -/
def window (a : Addr) (n : ℕ) : Set Addr :=
  {x | a.toNat + 0x08000000 ≤ x.toNat ∧ x.toNat < a.toNat + 0x08000000 + n}

theorem mem_window {a x : Addr} {n : ℕ} : x ∈ window a n ↔
    a.toNat + 0x08000000 ≤ x.toNat ∧ x.toNat < a.toNat + 0x08000000 + n := Iff.rfl

section Window
variable {a : Addr} {n : ℕ} (ha : a.toNat % 256 = 0) (hn : a.toNat + 256*n ≤ 0x08000000)
include ha hn

theorem pages_window : pageSet (pagesFrom a n) = window a (256*n) := by
  ext x
  have hx := x.isLt
  rw [mem_window]
  constructor
  · rintro ⟨c,hc,hxc⟩
    obtain ⟨k,hk,rfl⟩ := mem_pagesFrom.mp hc
    have ho := offset_toNat a (256*k)
    have hp := phys_toNat (a + BitVec.ofNat 32 (256*k)) (by omega)
    rw [mem_block] at hxc
    omega
  · intro hx
    have ho := offset_toNat a (256*((x.toNat - 0x08000000 - a.toNat)/256))
    have hp := phys_toNat (a + BitVec.ofNat 32 (256*((x.toNat - 0x08000000 - a.toNat)/256)))
      (by omega)
    refine ⟨_,mem_pagesFrom.mpr ⟨(x.toNat - 0x08000000 - a.toNat)/256,by omega,rfl⟩,?_⟩
    rw [mem_block]
    omega

theorem pages_disjoint : (pagesFrom a n).Pairwise
    fun p q => Disjoint (block 256 (phys p)) (block 256 (phys q)) := by
  apply shifted_disjoint
  intro k hk
  have ho := offset_toNat a (256*k)
  have hpa := phys_toNat a (by omega)
  have hpk := phys_toNat (a + BitVec.ofNat 32 (256*k)) (by omega)
  omega

end Window

theorem rewrite_window (wa : Addr) (len : BitVec 16) (ha : wa.toNat % 256 = 0)
    (hend : wa.toNat + len.toNat ≤ 0x40000) (h : wa + len.setWidth 32 ≤ 0xFFFFFF00) :
    pageSet (pages (pageAddr wa) (wa + len.setWidth 32) h) = window wa (rounded len) := by
  have hpa : pageAddr wa = wa := by
    have := pageAddr_toNat wa
    rw [← BitVec.toNat_inj]
    omega
  have hlim : (wa + len.setWidth 32).toNat = wa.toNat + len.toNat := by bv_omega
  have hmem : ∀ c, c ∈ pages wa (wa + len.setWidth 32) h ↔
      c ∈ pagesFrom wa ((len.toNat+255)/256) :=
    mem_pages_from h (by omega) (by omega)
  have hw := pages_window ha (n := (len.toNat+255)/256) (by omega)
  rw [rounded, mul_comm, ← hw, hpa]
  simp only [pageSet, hmem]

theorem payload_window {a : Addr} (ha : a.toNat % 256 = 0) (len : BitVec 16)
    (hend : a.toNat + len.toNat ≤ 0x40000) :
    pageSet (pagesFrom a (((len.toNat : ℤ).toNat+255)/256)) = window a (rounded len) := by
  rw [pages_window ha (by omega), mul_comm, Int.toNat_natCast, rounded]

/-- A block write that ends without an error has stored the payload, and has
changed nothing outside the pages it covers. -/
theorem write_block_ideal {hw : Controller} (hi : Ideal hw) (data : Source) (len : BitVec 16)
    (d : Dfu) (f : Fmc) (h : Idle f) (ha : (writeAddr d).toNat % 256 = 0)
    (hend : (writeAddr d).toNat + len.toNat ≤ 0x40000)
    (hok : (dfuWriteBlock hw data len d f).1.state ≠ .dfuError) :
    (∀ i < len.toNat, (dfuWriteBlock hw data len d f).2.flash
      (phys (writeAddr d) + BitVec.ofNat 32 i) = data.byte i) ∧
    AgreeOff (window (writeAddr d) (rounded len)) f.flash
      (dfuWriteBlock hw data len d f).2.flash := by
  obtain ⟨hin,he,-,hbytes,heq⟩ := write_block_ok hw data len d f hok
  rw [heq]
  refine ⟨hbytes,?_⟩
  have herase := erase_pages_ideal hi _ (page_aligned _ (flashEnd_le hin)) f h he
  rw [rewrite_window (writeAddr d) len ha hend (flashEnd_le hin)] at herase
  obtain ⟨done,-,hp⟩ := erase_pages_performs hw (pages (pageAddr (writeAddr d))
    (writeAddr d + len.setWidth 32) (flashEnd_le hin)) f h
  have hfrom := payload_window ha len hend
  have hwrite := write_loop_ideal hi _ (writeAddr d) data len.toNat rfl ha _
    (unlock_idle _ hp.idle) (unlock_unlocked _) (hfrom ▸ herase.erased)
    (pages_disjoint ha (by omega))
  rw [hfrom] at hwrite
  exact agreeOff_trans herase.frame hwrite

/-- A controller out of reset: both locks closed, and nothing else. -/
def resetFmc (m : Memory) : Fmc := ⟨0x8080,0,0,[],m,[]⟩

theorem reset_idle (m : Memory) : Idle (resetFmc m) where
  pg := show has 0x8080 fmcCtlPg = false by decide
  start := show has 0x8080 fmcCtlStart = false by decide
  fastProgram := show has 0x8080 fmcCtlFastProgram = false by decide
  fastErase := show has 0x8080 fmcCtlFastErase = false by decide
  ber32 := show has 0x8080 fmcCtlBer32 = false by decide
  fastStart := show has 0x8080 fmcCtlFastStart = false by decide
  pgErr := show has 0 fmcStatPgErr = false by decide
  wpErr := show has 0 fmcStatWpErr = false by decide
  endf := show has 0 fmcStatWpEndf = false by decide
  cache := rfl

end Swindle.IdealFlash
