import Swindle.FlashTwins
import Swindle.StoringFlash
import Swindle.Download

/-!
# What is programmed behind a payload

Programming goes on to the end of the last 256 bytes, and what the receive buffer
holds behind the payload is programmed with it. Two runs that differ only in
what earlier transfers have left there agree as long as every payload is a whole
number of pages.
-/

set_option autoImplicit false

namespace Swindle.BufferTails
open Swindle.WordMemory Swindle.FlashController Swindle.FlashOperations Swindle.DfuHandlers
open Swindle.FlashFrames Swindle.IdealFlash Swindle.FlashProgress Swindle.StoringFlash
open Swindle.FlashTwins Swindle.UsbDriver Swindle.StageTwo Swindle.UsbHost Swindle.Transfers
open Swindle.Download Swindle.MachineRuns

/-- Blocks inside the flash from page-aligned addresses on, and the commands that
set these addresses. -/
def Downloads : Addr → List Exchange → Prop
  | _, [] => True
  | A, x::xs => Firmware A x ∧ Downloads A xs ∨
      ∃ A' : Addr, A'.toNat % 256 = 0 ∧ SetsAddress A' x ∧ Downloads A' xs

/-- Two runs from startup, over whatever earlier traffic, have left the same flash
and the same address, and controllers that behave alike from now on. After
these downloads they have the same flash again. -/
def Independent (xs : List Exchange) : Prop :=
  ∀ (A : Addr) (b : Board) (f f' : Fmc) (before before' ps : List Poll),
    A.toNat % 256 = 0 → Downloads A xs → Ideal b.hw → Idle f → Idle f' →
    let s := run (loopTurn b) before (boot f)
    let s' := run (loopTurn b) before' (boot f')
    s.reset = false → s'.reset = false → s.dfu.dfuAddress = A → s'.dfu.dfuAddress = A →
    Twin b.hw s.fmc s'.fmc → ps.map Poll.event = xs.flatMap Exchange.events →
    (run (loopTurn b) (before++ps) (boot f)).fmc.flash =
      (run (loopTurn b) (before'++ps) (boot f')).fmc.flash

def WholePages (xs : List Exchange) : Prop := ∀ x ∈ xs, 2 ≤ x.block → 256 ∣ x.payload.length

/-! ## Whole pages -/

/-- Two machines that differ in their drivers and receive buffers only, as far as
downloads are concerned. -/
structure Paired (b : Board) (A : Addr) (s t : Stage2) : Prop where
  ready : Ready s
  ready' : Ready t
  address : s.dfu.dfuAddress = A
  address' : t.dfu.dfuAddress = A
  twin : Twin b.hw s.fmc t.fmc

section Paired
variable {b : Board} {A : Addr} {s t : Stage2} (h : Paired b A s t)
include h

theorem address_paired (A' : Addr) (x : Exchange) (hx : SetsAddress A' x) :
    Paired b A' (exchange b x s) (exchange b x t) := by
  obtain ⟨-,hr,ha,hf⟩ := address_set b A' x hx s h.ready
  obtain ⟨-,hr',ha',hf'⟩ := address_set b A' x hx t h.ready'
  exact ⟨hr,hr',ha,ha',by rw [hf, hf']; exact h.twin⟩

theorem firmware_paired (x : Exchange) (hx : Firmware A x) (hw : 256 ∣ x.payload.length) :
    Paired b A (exchange b x s) (exchange b x t) := by
  obtain ⟨hr,ha,hf,-⟩ := exchange_run b x s h.ready
  obtain ⟨hr',ha',hf',-⟩ := exchange_run b x t h.ready'
  have hroute : routeDfu x.transfer.req t.dfu = routeDfu x.transfer.req s.dfu := by
    rw [download_dfu _ _ x.transfer.download, download_dfu _ _ x.transfer.download, h.address,
      h.address']
  have hnum := block_num x s.dfu
  have haddr := (routed_address x s.dfu).trans h.address
  have hlen : x.transfer.req.wLength.toNat = x.payload.length := x.transfer.length
  have hsame : SameBytes (rounded x.transfer.req.wLength) (source b x s) (source b x t) := by
    intro i hi
    rw [rounded] at hi
    rw [source_payload b x s (by omega), source_payload b x t (by omega)]
  rw [hroute] at ha' hf'
  generalize routeDfu x.transfer.req s.dfu = d at *
  have hdata := fun src => block_data b.hw src x.transfer.req.wLength d
  rw [hdata _ _ (firmware_block x hx d hnum)] at ha hf ha' hf'
  obtain ⟨-,ht⟩ := write_block_data_twin h.twin x.transfer.req.wLength d hsame
  rw [← hf, ← hf'] at ht
  rw [write_address, haddr] at ha ha'
  exact ⟨hr,hr',ha,ha',ht⟩

end Paired

theorem downloads_paired (b : Board) (xs : List Exchange) (hw : WholePages xs) (A : Addr)
    (hx : Downloads A xs) (s t : Stage2) (h : Paired b A s t) :
    (run (exchange b) xs s).fmc.flash = (run (exchange b) xs t).fmc.flash := by
  induction xs generalizing A s t with
  | nil => exact h.twin.flash
  | cons x xs ih =>
    have hrest : WholePages xs := fun y hy => hw y (List.mem_cons_of_mem x hy)
    rcases hx with ⟨hf,hx⟩ | ⟨A',-,ha,hx⟩
    · exact ih hrest A hx _ _ (firmware_paired h x hf (hw x (by simp) hf.block))
    · exact ih hrest A' hx _ _ (address_paired h A' x ha)

theorem whole_pages_independent (xs : List Exchange) (hw : WholePages xs) : Independent xs := by
  intro A b f f' before before' ps _ hx _ hf hf' s s' hr hr' ha ha' ht hp
  rw [run_append, run_append, run_exchanges b xs ps hp, run_exchanges b xs ps hp]
  exact downloads_paired b xs hw A hx s s'
    ⟨ready_after b f hf before hr,ready_after b f' hf' before' hr',ha,ha',ht⟩

/-! ## Stale bytes -/

/-- A block numbered 1, which fills the receive buffer and is otherwise ignored. -/
def fillExchange (v : Byte) : Exchange :=
  hostExchange 1 (List.replicate 4096 v) (List.cons_ne_nil _ _) (List.length_replicate.le)

def addressCommand (A : Addr) : List Byte :=
  [dfuseCmdSetAddress,byteOf A 0,byteOf A 1,byteOf A 2,byteOf A 3]

theorem command_fits (A : Addr) : (addressCommand A).length ≤ 4096 := by
  simp [addressCommand]

def addressExchange (A : Addr) : Exchange :=
  hostExchange 0 (addressCommand A) (List.cons_ne_nil _ _) (command_fits A)

theorem address_sets (A : Addr) : SetsAddress A (addressExchange A) :=
  ⟨rfl,(by decide : 5 ≤ 5),rfl,littleEndian_byteOf A⟩

def fillPolls (v : Byte) (A : Addr) : List Poll :=
  downloadPolls 1 (List.replicate 4096 v) ++ downloadPolls 0 (addressCommand A)

theorem fill_events (v : Byte) (A : Addr) : (fillPolls v A).map Poll.event =
    [fillExchange v,addressExchange A].flatMap Exchange.events := by
  have hfill : List.replicate 4096 v ≠ [] := List.cons_ne_nil _ _
  have hcommand : addressCommand A ≠ [] := List.cons_ne_nil _ _
  rw [fillPolls, List.map_append, host_polls 1 _ hfill List.length_replicate.le,
    host_polls 0 _ hcommand (command_fits A)]
  simp only [fillExchange, addressExchange, List.flatMap_cons, List.flatMap_nil, List.append_nil]

theorem block_one_ignored (b : Board) (x : Exchange) (hx : x.block = 1) (s : Stage2)
    (hs : Ready s) : Ready (exchange b x s) ∧ (exchange b x s).fmc = s.fmc := by
  obtain ⟨hr,-,hf,-⟩ := exchange_run b x s hs
  have hnum := block_num x s.dfu
  have h0 : ¬ ((routeDfu x.transfer.req s.dfu).dfuBlockNum = 0 ∧ 5 ≤ x.transfer.req.wLength) := by
    bv_omega
  have h2 : ¬ (2 ≤ (routeDfu x.transfer.req s.dfu).dfuBlockNum ∧ 0 < x.transfer.req.wLength) := by
    bv_omega
  rw [dfuHandleData, if_neg h0, if_neg h2] at hf
  exact ⟨hr,hf⟩

/-- Any byte can be left over behind the first ones, with the flash untouched and
any address set. -/
theorem filled (b : Board) (v : Byte) (A : Addr) (f : Fmc) (hf : Idle f) :
    let s := run (loopTurn b) (fillPolls v A) (boot f)
    Ready s ∧ s.dfu.dfuAddress = A ∧ s.fmc = f ∧
      ∀ j, 5 ≤ j → j < 4096 → s.usb.dfuRxBuffer j = v := by
  rw [run_exchanges b _ _ (fill_events v A)]
  have hboot : Ready (boot f) := ready_after b f hf [] rfl
  have hfill : (fillExchange v).payload = List.replicate 4096 v := rfl
  have hfive : (addressExchange A).payload.length = 5 := rfl
  obtain ⟨hr,hfmc⟩ := block_one_ignored b (fillExchange v) rfl _ hboot
  obtain ⟨-,hr',ha,hfmc'⟩ := address_set b A (addressExchange A) (address_sets A) _ hr
  refine ⟨hr',ha,hfmc'.trans hfmc,fun j h5 hj => ?_⟩
  rw [run, run, run, exchange_buffer b _ _ hr, overlay, if_neg (by omega),
    exchange_buffer b _ _ hboot, overlay, hfill, List.length_replicate, if_pos hj, bytesAt,
    List.getD_eq_getElem?_getD, List.getElem?_replicate, if_pos hj, Option.getD_some]

/-- What is programmed behind the payload, up to the end of its last 256 bytes, is
what the receive buffer has held there. -/
theorem tail_programmed (A : Addr) (x : Exchange) (hx : Firmware A x) (s : Stage2) (hs : Ready s)
    (ha : s.dfu.dfuAddress = A) (j : ℕ) (hj : x.payload.length ≤ j)
    (hr : j < (x.payload.length+255)/256*256) :
    (exchange perfectBoard x s).fmc.flash
      (phys (A + BitVec.ofNat 32 ((x.block-2)*4096)) + BitVec.ofNat 32 j) =
        s.usb.dfuRxBuffer j := by
  obtain ⟨d,hd⟩ := block_write perfectBoard hx hs ha
  have hwa := hd.start
  have hlt := (writeAddr d).isLt
  have haddr : writeAddr d = A + BitVec.ofNat 32 ((x.block-2)*4096) := by
    have ho := offset_toNat A ((x.block-2)*4096)
    rw [← BitVec.toNat_inj]
    omega
  obtain ⟨-,hbytes⟩ := write_block_completes perfect_storing perfect_reliable
    (source perfectBoard x s) x.transfer.req.wLength d s.fmc hs.idle hd.inside
  rw [hd.fmc, ← haddr]
  rw [rounded, hd.length] at hbytes
  exact (hbytes j hr).trans (if_neg (Nat.not_lt.mpr hj))

theorem stale_tail (A : Addr) (hA : A.toNat % 256 = 0) (x : Exchange) (hx : Firmware A x)
    (hw : ¬ 256 ∣ x.payload.length) : ¬ Independent [x] := by
  intro h
  have hfit : x.payload.length ≤ 4096 := x.transfer.fits
  have hpos := length_pos x
  obtain ⟨j,hj⟩ : ∃ j, j = (x.payload.length+255)/256*256 - 1 := ⟨_,rfl⟩
  have hf := fun v => filled perfectBoard v A (resetFmc fun _ => 0xFF) (reset_idle _)
  obtain ⟨ps,hps⟩ := polls_found ([x].flatMap Exchange.events)
  have hbyte := fun v => tail_programmed A x hx _ (hf v).1 (hf v).2.1 j (by omega) (by omega)
  have hsame := h A perfectBoard (resetFmc fun _ => 0xFF) (resetFmc fun _ => 0xFF) (fillPolls 0 A)
    (fillPolls 1 A) ps hA (Or.inl ⟨hx,trivial⟩) perfect_ideal (reset_idle _) (reset_idle _)
    (hf 0).1.running (hf 1).1.running (hf 0).2.1 (hf 1).2.1
    (by rw [(hf 0).2.2.1, (hf 1).2.2.1]; exact twin_refl (reset_idle _)) hps
  rw [run_append, run_append, run_exchanges _ _ ps hps, run_exchanges _ _ ps hps] at hsame
  have hv := fun v => (hbyte v).trans ((hf v).2.2.2 j (by omega) (by omega))
  have hclash : (0 : Byte) = 1 := (hv 0).symm.trans ((congrFun hsame _).trans (hv 1))
  exact absurd hclash (by decide)

theorem downloads_member {xs : List Exchange} {A : Addr} (hA : A.toNat % 256 = 0)
    (h : Downloads A xs) {x : Exchange} (hx : x ∈ xs) (h2 : 2 ≤ x.block) :
    ∃ A' : Addr, A'.toNat % 256 = 0 ∧ Firmware A' x := by
  induction xs generalizing A with
  | nil => cases hx
  | cons y xs ih =>
    rcases List.mem_cons.mp hx with rfl | hx
    · rcases h with ⟨hf,-⟩ | ⟨A',-,ha,-⟩
      · exact ⟨A,hA,hf⟩
      · have h0 := ha.block
        omega
    · rcases h with ⟨-,h⟩ | ⟨A',hA',-,h⟩
      · exact ih hA h hx
      · exact ih hA' h hx

/-- The flash depends on nothing but the downloads, whichever part of a sequence
is looked at, exactly if every block of the sequence is a whole number of pages. -/
theorem independent_iff_whole_pages (A : Addr) (hA : A.toNat % 256 = 0) (xs : List Exchange)
    (hx : Downloads A xs) : (∀ part, part <:+: xs → Independent part) ↔ WholePages xs := by
  constructor
  · intro h x hmem h2
    obtain ⟨A',hA',hf⟩ := downloads_member hA hx hmem h2
    obtain ⟨ys,zs,hxs⟩ := List.append_of_mem hmem
    by_contra hw
    exact stale_tail A' hA' x hf hw (h [x] ⟨ys,zs,by rw [hxs]; simp⟩)
  · intro hw part hpart
    exact whole_pages_independent part fun x hmem => hw x (hpart.subset hmem)

def pageExchange : Exchange :=
  hostExchange 2 (List.replicate 256 7) (List.cons_ne_nil _ _) (by
    rw [List.length_replicate]
    decide)

/-- A block of a single page, after a command that sets the address. -/
theorem page_independent : (∀ part, part <:+: [addressExchange 0x4000,pageExchange] →
    Independent part) ↔ WholePages [addressExchange 0x4000,pageExchange] := by
  have hlen : pageExchange.payload.length = 256 := List.length_replicate
  exact independent_iff_whole_pages 0 (by decide) _
    (Or.inr ⟨0x4000,by decide,address_sets 0x4000,Or.inl ⟨⟨(by decide : 2 ≤ 2),by
      rw [hlen]
      exact (by decide : 0x4000 + (2-2)*4096 + 256 ≤ 0x40000)⟩,trivial⟩⟩)

/-- One byte at 0x4000 is programmed together with 255 bytes of an earlier transfer. -/
theorem one_byte_with_stale_tail : ¬ ∀ xs : List Exchange, Independent xs := fun h =>
  stale_tail 0x4000 (by decide) (hostExchange 2 [9] (by decide) (by decide))
    ⟨by decide,by decide⟩ (by decide) (h _)

end Swindle.BufferTails
