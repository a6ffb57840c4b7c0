import Swindle.UsbHost
import Swindle.FlashAgreement

/-!
# How far an ERASE_PAGE reaches

The command erases the 4 KB sector page by page, unless the sector starts a
32 KB block: then the whole block goes. Apart from that path an erase stays in
its sector, so other sectors survive and writes to them commute with it.
-/

set_option autoImplicit false

namespace Swindle.SectorErase
open Swindle.WordMemory Swindle.FlashController Swindle.FlashOperations Swindle.DfuHandlers
open Swindle.FlashFrames Swindle.IdealFlash Swindle.FlashAgreement
open Swindle.UsbDriver Swindle.StageTwo Swindle.UsbHost Swindle.MachineRuns

def sector (a : Addr) : Set Addr := block 4096 (phys a)

instance (a x : Addr) : Decidable (x ∈ sector a) :=
  inferInstanceAs (Decidable (x ∈ block 4096 (phys a)))

/-- FASTERASE changes only its page, BER32 only its 32 KB block. -/
structure LocalErase (hw : Controller) : Prop where
  page : ∀ log a m, AgreeOff (block 256 a) m (hw log (.fastErase a) m).1
  block : ∀ log a m, AgreeOff (block 32768 a) m (hw log (.blockErase a) m).1

theorem local_erase {hw : Controller} (h : Local hw) : LocalErase hw :=
  ⟨fun log a m => h log (.fastErase a) m,fun log a m => h log (.blockErase a) m⟩

/-- The 32 KB path is not taken. -/
def StaysLocal (m : Memory) (addr : Addr) : Prop :=
  sectorAddr addr % 32768 ≠ 0 ∨ sectorIsErased m (sectorAddr addr) (sectorEnd_le addr) = true

instance (m : Memory) (addr : Addr) : Decidable (StaysLocal m addr) :=
  inferInstanceAs (Decidable (_ ∨ _))

theorem low_address {a : Addr} (h : a < flashEnd) : a.toNat < 0x40000 := h

theorem sector_page (addr : Addr) (h : addr < flashEnd) (k : ℕ) (hk : k < 16) :
    PageIn (sector addr) (sectorAddr addr + BitVec.ofNat 32 (256*k)) := by
  have ha := low_address h
  have hs := sectorAddr_toNat addr
  have hn := offset_toNat (sectorAddr addr) (256*k)
  have hp := phys_toNat (sectorAddr addr + BitVec.ofNat 32 (256*k)) (by omega)
  have hq := phys_toNat addr (by omega)
  refine ⟨by omega,fun x hx => ?_⟩
  rw [mem_block] at hx
  rw [sector, mem_block]
  omega

theorem local_ops (addr : Addr) (h : addr < flashEnd) {hw : Controller} (hl : LocalErase hw)
    (done : List Addr) (hs : done.Sublist (pagesFrom (sectorAddr addr) 16)) :
    ∀ op ∈ eraseOps done, ∀ log m, AgreeOff (sector addr) m (hw log op m).1 := by
  intro op hop log m
  obtain ⟨a,ha,rfl⟩ := List.mem_map.mp hop
  obtain ⟨k,hk,rfl⟩ := mem_pagesFrom.mp (hs.subset ha)
  exact agreeOff_mono (sector_page addr h k hk).2 (hl.page log _ m)

theorem erase_local (addr : Addr) (h : addr < flashEnd) {hw : Controller} (hl : LocalErase hw)
    (d : Dfu) (f : Fmc) (hi : Idle f) (hs : StaysLocal f.flash addr) :
    AgreeOff (sector addr) f.flash (dfuErasePage hw addr d f).2.flash := by
  simp only [dfuErasePage, eraseSector]
  split_ifs with h1 h2 h3
  · exact agreeOff_refl _ _
  · exact absurd h2 (hs.resolve_right h1)
  · exact absurd h2 (hs.resolve_right h1)
  all_goals
    obtain ⟨done,hsub,hp⟩ := erase_range_performs hw 16 (sectorAddr addr) f hi
    exact performs_frame hp (local_ops addr h hl done hsub)

def scrambler : Controller := fun _ op m =>
  match op with
  | .blockErase a => (fun x => if x ∈ block 32768 a then m x + 1 else m x, ⟨false,false,true⟩)
  | _ => (m, ⟨false,false,true⟩)

theorem scrambler_local : LocalErase scrambler :=
  ⟨fun _ _ m => agreeOff_refl _ m,fun _ _ _ _ hx => if_neg hx⟩

/-- On the 32 KB path the sector behind the one addressed can change too. -/
theorem erase_not_local (addr : Addr) (h : addr < flashEnd) (d : Dfu) (f : Fmc) (hi : Idle f)
    (hs : ¬ StaysLocal f.flash addr) :
    ¬ AgreeOff (sector addr) f.flash (dfuErasePage scrambler addr d f).2.flash := by
  simp only [StaysLocal, not_or, not_not] at hs
  obtain ⟨h32,hne⟩ := hs
  have hflash : (dfuErasePage scrambler addr d f).2.flash =
      (scrambler f.log (.blockErase (phys (sectorAddr addr))) f.flash).1 := by
    rw [← performs_flash (erase_32k_performs scrambler (sectorAddr addr) f hi.quiet)]
    have he : eraseSector scrambler (sectorAddr addr) f =
        fmcErase32k scrambler (sectorAddr addr) f := if_pos h32
    simp only [dfuErasePage]
    rw [if_neg hne, he]
    split_ifs <;> rfl
  have ha := low_address h
  have hn := sectorAddr_toNat addr
  have hmod : (sectorAddr addr).toNat % 32768 = 0 := by bv_omega
  have hq := phys_toNat addr (by omega)
  have hp := phys_toNat (sectorAddr addr) (by omega)
  have hx := offset_toNat (phys (sectorAddr addr)) 4096
  intro hag
  have hsame := hag (phys (sectorAddr addr) + BitVec.ofNat 32 4096) (by
    rw [sector, mem_block]
    omega)
  have hin : phys (sectorAddr addr) + BitVec.ofNat 32 4096 ∈
      block 32768 (phys (sectorAddr addr)) := by
    rw [mem_block]
    omega
  rw [hflash] at hsame
  simp only [scrambler, if_pos hin] at hsame
  exact absurd hsame (by simp)

/-! ## Other sectors -/

/-- Every byte that a block covers, whole pages counted, is in another sector. -/
def WritesElsewhere (a : Addr) (len : BitVec 16) (d : Dfu) : Prop :=
  ∀ i < rounded len, sectorAddr (writeAddr d + BitVec.ofNat 32 i) ≠ sectorAddr a

instance (a : Addr) (len : BitVec 16) (d : Dfu) : Decidable (WritesElsewhere a len d) :=
  inferInstanceAs (Decidable (∀ i < rounded len, _))

theorem covered_elsewhere {a y x : Addr} (ha : a < flashEnd) (h : sectorAddr y ≠ sectorAddr a)
    (hc : CoveredBy y x) : x ∉ sector a := by
  have ha := low_address ha
  have hp := phys_toNat a (by omega)
  have hsa := sectorAddr_toNat a
  have hsy := sectorAddr_toNat y
  rw [ne_eq, ← BitVec.toNat_inj] at h
  rw [sector, mem_block]
  rcases hc with hc | ⟨rfl,hc⟩ <;> omega

theorem commits_elsewhere {a : Addr} (ha : a < flashEnd) (data : Source) {len : BitVec 16} {d : Dfu}
    (hb : IsBlock len d) (hw : WritesElsewhere a len d) (op : Op) (hop : Commits data len d op) :
    target op ⊆ (sector a)ᶜ := by
  intro x hx
  obtain ⟨i,hi,hc⟩ := commits_covered hb hop hx
  exact covered_elsewhere ha (hw i hi) hc

/-- A block that is refused writes nothing, and one that is accepted only its pages. -/
theorem write_elsewhere {hw : Controller} (hl : Local hw) {a : Addr} (ha : a < flashEnd)
    (data : Source) {len : BitVec 16} {d : Dfu} {f : Fmc} (hi : Idle f) (hb : IsBlock len d)
    (hw' : Accepted len d → WritesElsewhere a len d) :
    AgreeOn (sector a) f.flash (dfuWriteBlock hw data len d f).2.flash := by
  by_cases hend : flashEnd < writeAddr d + len.setWidth 32
  · rw [dfuWriteBlock, dif_pos hend]
    exact fun _ _ => rfl
  · obtain ⟨ops,hp,hc⟩ := write_block_commits hw data len d f hi hb
    have hag := performs_frame hp (fun op hop log m =>
      agreeOff_mono (commits_elsewhere ha data hb (hw' ⟨hb,hend⟩) op (hc op hop)) (hl log op m))
    exact fun x hx => hag x (fun hn => hn hx)

/-- A block of firmware that this event hands over lies in other sectors if it is
accepted, and an ERASE_PAGE goes to another sector and stays in it. -/
def ErasesElsewhere (b : Board) (a : Addr) (e : Event) (s : Stage2) : Prop :=
  match handedOver b e s with
  | some (data,len) => (Accepted len s.dfu → WritesElsewhere a len s.dfu) ∧
      (IsErasePage data len s.dfu → commandAddr data < flashEnd ∧
        sectorAddr (commandAddr data) ≠ sectorAddr a ∧ StaysLocal s.fmc.flash (commandAddr data))
  | none => True

instance (b : Board) (a : Addr) (e : Event) (s : Stage2) : Decidable (ErasesElsewhere b a e s) :=
  match h : handedOver b e s with
  | some (data,len) => decidable_of_iff ((Accepted len s.dfu → WritesElsewhere a len s.dfu) ∧
      (IsErasePage data len s.dfu → commandAddr data < flashEnd ∧
        sectorAddr (commandAddr data) ≠ sectorAddr a ∧ StaysLocal s.fmc.flash (commandAddr data)))
      (by rw [ErasesElsewhere, h])
  | none => isTrue (by rw [ErasesElsewhere, h]; trivial)

theorem sector_disjoint {a c : Addr} (ha : a < flashEnd) (hc : c < flashEnd)
    (h : sectorAddr c ≠ sectorAddr a) {x : Addr} (hx : x ∈ sector a) : x ∉ sector c := by
  have ha := low_address ha
  have hc := low_address hc
  have hpa := phys_toNat a (by omega)
  have hpc := phys_toNat c (by omega)
  have hsa := sectorAddr_toNat a
  have hsc := sectorAddr_toNat c
  rw [ne_eq, ← BitVec.toNat_inj] at h
  rw [sector, mem_block] at hx ⊢
  omega

theorem turn_elsewhere (b : Board) (hl : Local b.hw) (a : Addr) (ha : a < flashEnd)
    (e : Event) (s : Stage2) (hi : Idle s.fmc) (h : ErasesElsewhere b a e s) :
    AgreeOn (sector a) s.fmc.flash (turn b e s).fmc.flash := by
  rw [turn_fmc]
  cases hh : handedOver b e s with
  | none => exact fun _ _ => rfl
  | some call =>
    rw [ErasesElsewhere, hh] at h
    obtain ⟨hw,he⟩ := h
    by_cases hb : IsBlock call.2 s.dfu
    · simp only [block_data b.hw call.1 call.2 s.dfu s.fmc hb]
      exact write_elsewhere hl ha call.1 hi hb hw
    by_cases hep : IsErasePage call.1 call.2 s.dfu
    · obtain ⟨hc,hne,hs⟩ := he hep
      intro x hx
      simp only [erase_page_data b.hw call.1 call.2 s.dfu s.fmc hep]
      exact erase_local _ hc (local_erase hl) s.dfu s.fmc hi hs x (sector_disjoint ha hc hne hx)
    · intro x hx
      have hsame : (dfuHandleData b.hw call.1 call.2 s.dfu s.fmc).2 = s.fmc := by
        rw [dfuHandleData, if_neg (show ¬ (2 ≤ s.dfu.dfuBlockNum ∧ 0 < call.2) from hb)]
        simp only [dfuCommand]
        split_ifs with h0 h1 h2
        · rfl
        · exact absurd ⟨h0.1,h0.2,h2⟩ hep
        · rfl
        · rfl
      simp only [hsame]

theorem sector_survives (b : Board) (hl : Local b.hw) (a : Addr) (ha : a < flashEnd)
    (ps : List Poll) (s : Stage2) (hi : Idle s.fmc)
    (h : Along (loopTurn b) (fun p t => ErasesElsewhere b a p.event t) ps s) :
    AgreeOn (sector a) s.fmc.flash (run (loopTurn b) ps s).fmc.flash := by
  refine (run_invariant (loopTurn b) _
    (fun t => Idle t.fmc ∧ AgreeOn (sector a) s.fmc.flash t.fmc.flash) ?_ ps s h
    ⟨hi,fun _ _ => rfl⟩).2
  rintro p t he ⟨ht,hag⟩
  rw [loop_event]
  exact ⟨turn_idle_fmc b p.event t ht,
    fun x hx => (turn_elsewhere b hl a ha p.event t ht he x hx).trans (hag x hx)⟩

/-! ## Erases and writes of different sectors -/

theorem sector_pages_in (a : Addr) (ha : a < flashEnd) :
    ∀ p ∈ pages (sectorAddr a) (sectorAddr a + dfuSectorSize) (sectorEnd_le a),
      PageIn (sector a) p := by
  intro p hp
  obtain ⟨k,hk,hlt⟩ := mem_pages.mp hp
  have hla := low_address ha
  have hs := sectorAddr_toNat a
  have hd : dfuSectorSize = 4096 := rfl
  rw [hd] at hlt
  have hk16 : k < 16 := by bv_omega
  have he : p = sectorAddr a + BitVec.ofNat 32 (256*k) := by
    rw [← BitVec.toNat_inj, offset_toNat]
    omega
  rw [he]
  exact sector_page a ha k hk16

theorem sector_is_erased_agree (a : Addr) (ha : a < flashEnd) {m m' : Memory}
    (h : AgreeOn (sector a) m m') : sectorIsErased m (sectorAddr a) (sectorEnd_le a) =
      sectorIsErased m' (sectorAddr a) (sectorEnd_le a) := by
  rw [Bool.eq_iff_iff]
  simp only [sectorIsErased, List.all_eq_true]
  refine forall₂_congr fun p hp => ?_
  rw [page_is_erased_agree (sector_pages_in a ha p hp) h]

theorem erase_command_idle (hw : Controller) (a : Addr) (d : Dfu) (f : Fmc) (hi : Idle f) :
    Idle (dfuErasePage hw a d f).2 := by
  simp only [dfuErasePage, eraseSector]
  split_ifs
  · exact hi
  · exact (erase_32k_performs hw _ f hi.quiet).idle
  · exact (erase_32k_performs hw _ f hi.quiet).idle
  all_goals
    obtain ⟨done,-,hp⟩ := erase_range_performs hw 16 (sectorAddr a) f hi
    exact hp.idle

section Alike
variable {hw : Controller} (hl : Local hw) (hm : Memoryless hw)
include hl hm

theorem erase_alike (a : Addr) (ha : a < flashEnd) (d : Dfu) {f f' : Fmc}
    (hs : StaysLocal f.flash a) (h : Alike (sector a) f f') :
    (dfuErasePage hw a d f).1 = (dfuErasePage hw a d f').1 ∧
      AgreeOn (sector a) (dfuErasePage hw a d f).2.flash (dfuErasePage hw a d f').2.flash := by
  simp only [dfuErasePage, ← sector_is_erased_agree a ha h.agree]
  by_cases he : sectorIsErased f.flash (sectorAddr a) (sectorEnd_le a) = true
  · rw [if_pos he, if_pos he]
    exact ⟨rfl,h.agree⟩
  · have h32 := hs.resolve_right he
    have hsec : ∀ g, eraseSector hw (sectorAddr a) g = fmcErasePages hw 16 (sectorAddr a) g :=
      fun g => if_neg h32
    obtain ⟨hr,hag⟩ := erase_range_alike hl hm 16 (sectorAddr a) (fun p hp => by
      obtain ⟨k,hk,rfl⟩ := mem_pagesFrom.mp hp
      exact sector_page a ha k hk) h
    rw [if_neg he, if_neg he, hsec, hsec, ← hr]
    split_ifs <;> exact ⟨rfl,hag.agree⟩

theorem write_alike_elsewhere (a : Addr) (ha : a < flashEnd) (data : Source) (len : BitVec 16)
    (d : Dfu) (hb : IsBlock len d) (hw' : WritesElsewhere a len d) {f f' : Fmc}
    (h : Alike (sector a)ᶜ f f') :
    (dfuWriteBlock hw data len d f).1 = (dfuWriteBlock hw data len d f').1 ∧
      AgreeOn (sector a)ᶜ (dfuWriteBlock hw data len d f).2.flash
        (dfuWriteBlock hw data len d f').2.flash := by
  by_cases hend : flashEnd < writeAddr d + len.setWidth 32
  · rw [dfuWriteBlock, dif_pos hend, dfuWriteBlock, dif_pos hend]
    exact ⟨rfl,h.agree⟩
  · have hacc : Accepted len d := ⟨hb,hend⟩
    have hclear := commits_elsewhere ha data hb hw'
    have hpages : ∀ p ∈ pages (pageAddr (writeAddr d)) (writeAddr d + len.setWidth 32)
        (flashEnd_le hacc.2), PageIn (sector a)ᶜ p := by
      intro p hp
      obtain ⟨k,hk,-⟩ := mem_pages.mp hp
      have hpa := pageAddr_toNat (writeAddr d)
      have hcom : Commits data len d (.fastErase (phys p)) := Commits.rewrite hacc p hp
      exact ⟨by omega,hclear _ hcom⟩
    have hblocks : ∀ op ∈ writeOps ((len.toNat+255)/256) (writeAddr d) data,
        target op ⊆ (sector a)ᶜ := by
      intro op hop
      obtain ⟨k,hk,src,rfl⟩ := mem_writeOps hop
      have hcom : Commits data len d _ := Commits.program hacc k hk src
      exact hclear _ hcom
    have hbytes : ∀ i < len.toNat, phys (writeAddr d) + BitVec.ofNat 32 i ∈ (sector a)ᶜ :=
      fun i hi => covered_elsewhere ha (hw' i (by unfold rounded; omega)) (verified_covered hacc hi)
    obtain ⟨he,hea⟩ := erase_pages_alike hl hm _ hpages h
    obtain ⟨hr,hra⟩ := write_alike hl hm (writeAddr d) data len.toNat hblocks hea
    have hv := verify_agree (writeAddr d) data len.toNat _ _ hbytes hra.agree
    simp only [dfuWriteBlock, dif_neg hend, ← he, ← hr, ← hv]
    split_ifs
    · exact ⟨rfl,hea.agree⟩
    · exact ⟨rfl,hra.agree⟩
    · exact ⟨rfl,hra.agree⟩
    · exact ⟨rfl,hra.agree⟩

/-- An ERASE_PAGE that stays in its sector and a block write that stays clear of
it commute: they report the same and leave the same flash in either order. -/
theorem erase_write_commute (a : Addr) (ha : a < flashEnd) (d : Dfu) (data : Source)
    (len : BitVec 16) (d' : Dfu) (f : Fmc) (hi : Idle f) (hs : StaysLocal f.flash a)
    (hb : IsBlock len d') (hw' : WritesElsewhere a len d') :
    let e := dfuErasePage hw a d f
    let w := dfuWriteBlock hw data len d' f
    (dfuErasePage hw a d w.2).1 = e.1 ∧ (dfuWriteBlock hw data len d' e.2).1 = w.1 ∧
      (dfuErasePage hw a d w.2).2.flash = (dfuWriteBlock hw data len d' e.2).2.flash := by
  intro e w
  have hframe : ∀ g, Idle g → Idle (dfuWriteBlock hw data len d' g).2 ∧
      AgreeOn (sector a) g.flash (dfuWriteBlock hw data len d' g).2.flash := by
    intro g hg
    obtain ⟨ops,hp,-⟩ := write_block_commits hw data len d' g hg hb
    exact ⟨hp.idle,write_elsewhere hl ha data hg hb (fun _ => hw')⟩
  have hei : Idle e.2 := erase_command_idle hw a d f hi
  obtain ⟨hwi,hwon⟩ := hframe f hi
  have heoff : AgreeOff (sector a) f.flash e.2.flash :=
    erase_local a ha (local_erase hl) d f hi hs
  have hsw : StaysLocal w.2.flash a := by
    rw [StaysLocal, ← sector_is_erased_agree a ha hwon]
    exact hs
  obtain ⟨hed,hea⟩ := erase_alike hl hm a ha d hs ⟨hi,hwi,hwon⟩
  obtain ⟨hwd,hwa⟩ := write_alike_elsewhere hl hm a ha data len d' hb hw' ⟨hi,hei,heoff⟩
  refine ⟨hed.symm,hwd.symm,funext fun x => ?_⟩
  by_cases hx : x ∈ sector a
  · rw [hea x hx, (hframe e.2 hei).2 x hx]
  · rw [hwa x hx, erase_local a ha (local_erase hl) d w.2 hwi hsw x hx]

end Alike

/-- ERASE_PAGE keeps to its sector exactly when it does not take the 32 KB path.
Without that path a sector survives every later erase and write of other sectors,
and a block write that stays clear of the sector can be exchanged with the erase. -/
theorem erases_stay_local (f : Fmc) (hi : Idle f) :
    (∀ data len d, IsErasePage data len d → commandAddr data < flashEnd →
      ((∀ hw, LocalErase hw → AgreeOff (sector (commandAddr data)) f.flash
        (dfuHandleData hw data len d f).2.flash) ↔ StaysLocal f.flash (commandAddr data))) ∧
    (∀ b before after a, Local b.hw → a < flashEnd →
      let s := run (loopTurn b) before (boot f)
      Along (loopTurn b) (fun p t => ErasesElsewhere b a p.event t) after s →
      AgreeOn (sector a) s.fmc.flash (run (loopTurn b) after s).fmc.flash) ∧
    (∀ hw, Local hw → Memoryless hw → ∀ data len d data' len' d',
      IsErasePage data len d → commandAddr data < flashEnd →
      StaysLocal f.flash (commandAddr data) → IsBlock len' d' →
      WritesElsewhere (commandAddr data) len' d' →
      let e := dfuHandleData hw data len d f
      let w := dfuHandleData hw data' len' d' f
      (dfuHandleData hw data len d w.2).1 = e.1 ∧ (dfuHandleData hw data' len' d' e.2).1 = w.1 ∧
        (dfuHandleData hw data len d w.2).2.flash =
          (dfuHandleData hw data' len' d' e.2).2.flash) := by
  refine ⟨?_,?_,?_⟩
  · intro data len d he ha
    constructor
    · intro h
      by_contra hs
      have hag := h scrambler scrambler_local
      rw [erase_page_data scrambler data len d f he] at hag
      exact erase_not_local _ ha d f hi hs hag
    · intro hs hw hl
      rw [erase_page_data hw data len d f he]
      exact erase_local _ ha hl d f hi hs
  · intro b before after a hl ha s h
    have hs : Idle s.fmc := run_always (loopTurn b) (fun t => Idle t.fmc) (loop_idle_fmc b) before
      (boot f) hi
    exact sector_survives b hl a ha after s hs h
  · intro hw hl hm data len d data' len' d' he ha hs hb hwe
    simp only [erase_page_data hw data len d _ he, block_data hw data' len' d' _ hb]
    exact erase_write_commute hl hm _ ha d data' len' d' f hi hs hb hwe

def erase5000 : List Byte := [dfuseCmdErasePage,0,0x50,0,0]

/-- ERASE_PAGE and SET_ADDRESS for a sector, then a block with one byte for it. -/
def eraseAndWrite (page : Byte) : List Poll :=
  downloadPolls 0 [dfuseCmdErasePage,0,page,0,0] ++
    downloadPolls 0 [dfuseCmdSetAddress,0,page,0,0] ++ downloadPolls 2 [0xAA]

/-- Over flash that is nowhere erased, erasing the sector at 0x5000 keeps the
rest, erasing it and then writing a byte there keeps the sector at 0x4000, and
the erase commutes with a byte written at 0x6000. -/
theorem erase5000_stays_local :
    let f := resetFmc fun _ => 0xFF
    let data : Source := ⟨0x20000000,bytesAt erase5000⟩
    let data' : Source := ⟨0x20000000,bytesAt [0xAA]⟩
    let d : Dfu := { Dfu.init with state := .dfuDnloadSync }
    let d' : Dfu := ⟨.dfuDnloadSync,.ok,0x6000,2⟩
    let e := dfuHandleData perfect data 5 d f
    let w := dfuHandleData perfect data' 1 d' f
    AgreeOff (sector (commandAddr data)) f.flash e.2.flash ∧
    AgreeOn (sector 0x4000) f.flash
      (run (loopTurn perfectBoard) (eraseAndWrite 0x50) (boot f)).fmc.flash ∧
    (dfuHandleData perfect data 5 d w.2).1 = e.1 ∧ (dfuHandleData perfect data' 1 d' e.2).1 = w.1 ∧
      (dfuHandleData perfect data 5 d w.2).2.flash = (dfuHandleData perfect data' 1 d' e.2).2.flash := by
  obtain ⟨h1,h2,h3⟩ := erases_stay_local (resetFmc fun _ => 0xFF) (reset_idle _)
  exact ⟨(h1 _ _ _ (by decide) (by decide)).mpr (by decide +kernel) perfect
      (local_erase perfect_local),
    h2 perfectBoard [] (eraseAndWrite 0x50) 0x4000 perfect_local (by decide) (by decide +kernel),
    h3 perfect perfect_local perfect_memoryless _ _ _ _ _ _ (by decide) (by decide)
      (by decide +kernel) (by decide) (by decide +kernel)⟩

/-- ERASE_PAGE of the sector at 0x8000 wipes the sector at 0x9000 too. -/
theorem aligned_erase_spreads : ¬ ∀ (b : Board) (f : Fmc), LocalErase b.hw → Idle f →
    ∀ ps : List Poll, Along (loopTurn b) (fun p s => ∀ data len,
      handedOver b p.event s = some (data,len) → IsErasePage data len s.dfu →
      commandAddr data < flashEnd →
      AgreeOff (sector (commandAddr data)) s.fmc.flash (loopTurn b p s).fmc.flash) ps (boot f) := by
  intro h
  obtain ⟨-,hk,-⟩ := h perfectBoard (resetFmc fun _ => 0xFF) (local_erase perfect_local)
    (reset_idle _) (downloadPolls 0 [dfuseCmdErasePage,0,0x80,0,0])
  have hag := hk _ _ rfl (by decide +kernel) (by decide +kernel) 0x08009000 (by decide +kernel)
  exact absurd hag (by decide +kernel)

end Swindle.SectorErase
