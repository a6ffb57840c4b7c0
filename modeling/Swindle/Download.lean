import Swindle.FlashProgress
import Swindle.Transfers

/-!
# Downloads, from the host's payloads to the flash

Every block of firmware has a slot of its own, and a block that ends without
an error has stored its payload and touched no other slot. So the flash holds
the last payload of every block, whatever the order of the transfers.
-/

set_option autoImplicit false

namespace Swindle.Download
open Swindle.WordMemory Swindle.FlashController Swindle.FlashOperations Swindle.DfuHandlers
open Swindle.FlashFrames Swindle.IdealFlash Swindle.FlashProgress Swindle.UsbDriver Swindle.StageTwo Swindle.UsbHost
open Swindle.Transfers Swindle.MachineRuns

/-- What may happen between two downloads: quiet polls, the packets of status
stages and of IN data stages, and the requests that only ask for the state. -/
inductive Between : Event → Prop
  | quiet : Between .quiet
  | inDone : Between .inDone
  | statusOut (buf : ℕ → Byte) : Between (.out 0 buf)
  | ask (req : SetupPacket) (ht : requestType req = 0x20)
      (hr : req.bRequest = dfuGetstatus ∨ req.bRequest = dfuGetstate)
      (hd : req.bmRequestType &&& usbDirIn ≠ 0) : Between (.setup req)

/-- A download, with the events of its data stage and those up to the next one. -/
structure Exchange where
  transfer : Transfer
  data : List Event
  carries : Carries (packets transfer.payload) data
  after : List Event
  between : ∀ e ∈ after, Between e

namespace Exchange

def events (x : Exchange) : List Event := .setup x.transfer.req :: x.data ++ x.after

def payload (x : Exchange) : List Byte := x.transfer.payload

def block (x : Exchange) : ℕ := x.transfer.req.wValue.toNat

end Exchange

def exchange (b : Board) (x : Exchange) (s : Stage2) : Stage2 := run (turn b) x.events s

/-- The transfer, without what follows it, does not end in the error state. -/
def EndsWell (b : Board) (x : Exchange) (s : Stage2) : Prop :=
  (run (turn b) (.setup x.transfer.req :: x.data) s).dfu.state ≠ .dfuError

structure SetsAddress (A : Addr) (x : Exchange) : Prop where
  block : x.block = 0
  length : 5 ≤ x.payload.length
  command : bytesAt x.payload 0 = dfuseCmdSetAddress
  address : littleEndian (bytesAt x.payload 1) (bytesAt x.payload 2) (bytesAt x.payload 3)
    (bytesAt x.payload 4) = A

structure Firmware (A : Addr) (x : Exchange) : Prop where
  block : 2 ≤ x.block
  inside : A.toNat + (x.block-2)*4096 + x.payload.length ≤ flashEnd.toNat

/-! ## What the events between two downloads leave alone -/

theorem getstatus_live {st : DfuState} (h : ¬ Resets st) : ¬ Resets (getstatusState st) := by
  cases st <;> simp_all [getstatusState, Resets]

theorem ask_dfu (req : SetupPacket) (d : Dfu) (ht : requestType req = 0x20)
    (hr : req.bRequest = dfuGetstatus ∨ req.bRequest = dfuGetstate) :
    (routeDfu req d).dfuAddress = d.dfuAddress ∧
      (¬ Resets d.state → ¬ Resets (routeDfu req d).state) := by
  rw [routeDfu, if_pos ht]
  refine ⟨request_address req d,fun h => ?_⟩
  rcases hr with hr | hr
  · rw [getstatus_reply req d hr]
    exact getstatus_live h
  · rw [getstate_reply req d hr]
    exact h

theorem between_keeps (b : Board) (e : Event) (he : Between e) (s : Stage2) (hs : Resting s) :
    Resting (turn b e s) ∧ (turn b e s).dfu.dfuAddress = s.dfu.dfuAddress ∧
      (turn b e s).fmc = s.fmc ∧ (turn b e s).usb.dfuRxBuffer = s.usb.dfuRxBuffer := by
  cases he with
  | quiet =>
    rw [turn_quiet b s (ready_settled hs.ready)]
    exact ⟨hs,rfl,rfl,rfl⟩
  | inDone =>
    rw [turn_event b .inDone s hs.ready.running hs.ready.live]
    exact ⟨⟨⟨hs.ready.running,hs.ready.live,hs.ready.idle⟩,
      fun h => hs.phase ((in_dataOut s.usb).mp h)⟩,rfl,rfl,in_rxBuffer s.usb⟩
  | statusOut buf =>
    rw [turn_out b 0 buf s hs.ready.running hs.ready.live (fun h => hs.phase h.1)]
    exact ⟨⟨⟨hs.ready.running,hs.ready.live,hs.ready.idle⟩,
      fun h => hs.phase (out_dataOut h)⟩,rfl,rfl,by rw [outUsb, if_neg hs.phase]⟩
  | ask req ht hr hd =>
    have hdfu : (onEvent b (.setup req) s).dfu = routeDfu req s.dfu := event_dfu b _ s
    obtain ⟨haddr,hlive⟩ := ask_dfu req s.dfu ht hr
    rw [turn_event b _ s hs.ready.running (hdfu ▸ hlive hs.ready.live)]
    exact ⟨⟨⟨hs.ready.running,hdfu ▸ hlive hs.ready.live,hs.ready.idle⟩,
      fun h => hd ((setup_dataOut req s.usb s.dfu).mp h).2⟩,hdfu ▸ haddr,rfl,
      setup_rxBuffer req s.usb s.dfu⟩

theorem after_keeps (b : Board) (events : List Event) (he : ∀ e ∈ events, Between e) (s : Stage2)
    (hs : Resting s) : Resting (run (turn b) events s) ∧
      (run (turn b) events s).dfu.dfuAddress = s.dfu.dfuAddress ∧
      (run (turn b) events s).fmc = s.fmc ∧
      (run (turn b) events s).usb.dfuRxBuffer = s.usb.dfuRxBuffer := by
  induction events generalizing s with
  | nil => exact ⟨hs,rfl,rfl,rfl⟩
  | cons e events ih =>
    obtain ⟨hr,ha,hf,hb⟩ := between_keeps b e (he e (by simp)) s hs
    obtain ⟨hr',ha',hf',hb'⟩ := ih (fun e' h' => he e' (by simp [h'])) _ hr
    exact ⟨hr',ha'.trans ha,hf'.trans hf,hb'.trans hb⟩

/-- The receive buffer as the data handler finds it in an exchange. -/
def source (b : Board) (x : Exchange) (s : Stage2) : Source :=
  received b x.payload s.usb.dfuRxBuffer

theorem source_payload (b : Board) (x : Exchange) (s : Stage2) {i : ℕ}
    (h : i < x.payload.length) : (source b x s).byte i = bytesAt x.payload i := overlay_payload h

/-- An exchange is one call of the data handler, with the payload as the host has it. -/
theorem exchange_run (b : Board) (x : Exchange) (s : Stage2) (hs : Ready s) :
    let r := dfuHandleData b.hw (source b x s) x.transfer.req.wLength
      (routeDfu x.transfer.req s.dfu) s.fmc
    Ready (exchange b x s) ∧ (exchange b x s).dfu.dfuAddress = r.1.dfuAddress ∧
      (exchange b x s).fmc = r.2 ∧ (EndsWell b x s ↔ r.1.state ≠ .dfuError) := by
  obtain ⟨hd,hf,hr,-⟩ := transfer_run b x.transfer x.data x.carries s hs
  obtain ⟨hr',ha',hf',-⟩ := after_keeps b x.after x.between _ hr
  simp only [exchange, Exchange.events, run_append, EndsWell]
  exact ⟨hr'.ready,by rw [ha', hd]; rfl,by rw [hf', hf]; rfl,by rw [hd]; rfl⟩

theorem exchange_buffer (b : Board) (x : Exchange) (s : Stage2) (hs : Ready s) :
    (exchange b x s).usb.dfuRxBuffer = overlay x.payload s.usb.dfuRxBuffer := by
  obtain ⟨-,-,hr,hb⟩ := transfer_run b x.transfer x.data x.carries s hs
  obtain ⟨-,-,-,hb'⟩ := after_keeps b x.after x.between _ hr
  simp only [exchange, Exchange.events, run_append]
  exact hb'.trans hb

theorem length_pos (x : Exchange) : 0 < x.payload.length := by
  have h := x.transfer.download.2.2
  rw [Exchange.payload, ← x.transfer.length]
  bv_omega

theorem block_num (x : Exchange) (d : Dfu) :
    (routeDfu x.transfer.req d).dfuBlockNum.toNat = x.block := by
  rw [download_dfu _ d x.transfer.download]
  exact BitVec.toNat_setWidth_of_le (by decide)

theorem routed_address (x : Exchange) (d : Dfu) :
    (routeDfu x.transfer.req d).dfuAddress = d.dfuAddress := by
  rw [download_dfu _ d x.transfer.download]

theorem address_set (b : Board) (A : Addr) (x : Exchange) (hx : SetsAddress A x) (s : Stage2)
    (hs : Ready s) : EndsWell b x s ∧ Ready (exchange b x s) ∧
      (exchange b x s).dfu.dfuAddress = A ∧ (exchange b x s).fmc = s.fmc := by
  obtain ⟨hr,ha,hf,hend⟩ := exchange_run b x s hs
  have hb := fun i => source_payload b x s (i := i)
  generalize source b x s = src at *
  have h5 := hx.length
  have hblock : (routeDfu x.transfer.req s.dfu).dfuBlockNum = 0 := by
    rw [← BitVec.toNat_inj, block_num, hx.block]
    rfl
  have hlen : 5 ≤ x.transfer.req.wLength := by
    have hl := x.transfer.length
    rw [Exchange.payload] at h5
    bv_omega
  have hc : src.byte 0 = dfuseCmdSetAddress := by rw [hb 0 (by omega), hx.command]
  have haddr : commandAddr src = A := by
    rw [commandAddr, assemble_bytes, hb 1 (by omega), hb 2 (by omega), hb 3 (by omega),
      hb 4 (by omega), hx.address]
  rw [dfuHandleData, if_pos ⟨hblock,hlen⟩, dfuCommand, if_pos hc] at ha hf hend
  refine ⟨hend.mpr ?_,hr,ha.trans haddr,hf⟩
  rw [download_dfu _ s.dfu x.transfer.download]
  exact (by decide : DfuState.dfuDnloadSync ≠ .dfuError)

/-! ## Slots -/

/-- The 4096 bytes of a block, in the memory behind the controller. -/
def slot (A : Addr) (block : ℕ) : Set Addr :=
  {x | A.toNat + (block-2)*4096 + 0x08000000 ≤ x.toNat ∧
    x.toNat < A.toNat + (block-2)*4096 + 0x08000000 + 4096}

theorem mem_slot {A x : Addr} {block : ℕ} : x ∈ slot A block ↔
    A.toNat + (block-2)*4096 + 0x08000000 ≤ x.toNat ∧
      x.toNat < A.toNat + (block-2)*4096 + 0x08000000 + 4096 := Iff.rfl

theorem slots_apart {A x : Addr} {block block' : ℕ} (h2 : 2 ≤ block) (h2' : 2 ≤ block')
    (h : block ≠ block') (hx : x ∈ slot A block) : x ∉ slot A block' := by
  rw [mem_slot] at hx ⊢
  omega

def byteAddr (A : Addr) (block j : ℕ) : Addr := A + BitVec.ofNat 32 ((block-2)*4096+j)

def Holds (A : Addr) (x : Exchange) (m : Memory) : Prop :=
  ∀ j < x.payload.length, m (phys (byteAddr A x.block j)) = bytesAt x.payload j

theorem byte_in_slot {A : Addr} {x : Exchange} (hx : Firmware A x) {j : ℕ}
    (hj : j < x.payload.length) : phys (byteAddr A x.block j) ∈ slot A x.block := by
  have hin := hx.inside
  have hfit : x.payload.length ≤ 4096 := x.transfer.fits
  have ho := offset_toNat A ((x.block-2)*4096+j)
  have hf : flashEnd.toNat = 0x40000 := rfl
  have hp := phys_toNat (byteAddr A x.block j) (by rw [byteAddr]; omega)
  rw [mem_slot, hp, byteAddr]
  omega

theorem write_addr (A : Addr) (x : Exchange) (hx : Firmware A x) (d : Dfu)
    (ha : d.dfuAddress = A) (hb : d.dfuBlockNum.toNat = x.block) :
    (writeAddr d).toNat = A.toNat + (x.block-2)*4096 := by
  have hin := hx.inside
  have h2 := hx.block
  have hf : flashEnd.toNat = 0x40000 := rfl
  rw [writeAddr_toNat d (by bv_omega), ha, hb]
  omega

theorem firmware_block {A : Addr} (x : Exchange) (hx : Firmware A x) (d : Dfu)
    (hb : d.dfuBlockNum.toNat = x.block) : IsBlock x.transfer.req.wLength d := by
  have h2 := hx.block
  have hpos := length_pos x
  have hlen : x.transfer.req.wLength.toNat = x.payload.length := x.transfer.length
  exact ⟨by bv_omega,by bv_omega⟩

/-- What a block of firmware comes to, sent to a ready machine with base `A`: one
block write, with `d` for the handler's variables. -/
structure BlockWrite (b : Board) (A : Addr) (x : Exchange) (s : Stage2) (d : Dfu) : Prop where
  start : (writeAddr d).toNat = A.toNat + (x.block-2)*4096
  length : x.transfer.req.wLength.toNat = x.payload.length
  inside : (writeAddr d).toNat + x.transfer.req.wLength.toNat ≤ 0x40000
  live : d.state ≠ .dfuError
  ready : Ready (exchange b x s)
  address : (exchange b x s).dfu.dfuAddress = A
  fmc : (exchange b x s).fmc =
    (dfuWriteBlock b.hw (source b x s) x.transfer.req.wLength d s.fmc).2
  ends : EndsWell b x s ↔
    (dfuWriteBlock b.hw (source b x s) x.transfer.req.wLength d s.fmc).1.state ≠ .dfuError

theorem block_write (b : Board) {A : Addr} {x : Exchange} (hx : Firmware A x) {s : Stage2}
    (hs : Ready s) (ha : s.dfu.dfuAddress = A) : ∃ d, BlockWrite b A x s d := by
  obtain ⟨hr,haddr,hf,hend⟩ := exchange_run b x s hs
  have hnum := block_num x s.dfu
  have hroute : (routeDfu x.transfer.req s.dfu).dfuAddress = A := (routed_address x s.dfu).trans ha
  have hwa := write_addr A x hx _ hroute hnum
  have hlen : x.transfer.req.wLength.toNat = x.payload.length := x.transfer.length
  rw [block_data b.hw _ _ _ s.fmc (firmware_block x hx _ hnum)] at haddr hf hend
  refine ⟨routeDfu x.transfer.req s.dfu,hwa,hlen,?_,?_,hr,?_,hf,hend⟩
  · rw [hwa, hlen]
    exact hx.inside
  · rw [download_dfu _ s.dfu x.transfer.download]
    exact (by decide : DfuState.dfuDnloadSync ≠ .dfuError)
  · rw [haddr, write_address, hroute]

theorem firmware_stored (b : Board) (hi : Ideal b.hw) (A : Addr) (hA : A.toNat % 256 = 0)
    (x : Exchange) (hx : Firmware A x) (s : Stage2) (hs : Ready s)
    (ha : s.dfu.dfuAddress = A) (hok : EndsWell b x s) :
    Ready (exchange b x s) ∧ (exchange b x s).dfu.dfuAddress = A ∧
      Holds A x (exchange b x s).fmc.flash ∧
      AgreeOff (slot A x.block) s.fmc.flash (exchange b x s).fmc.flash := by
  obtain ⟨d,hd⟩ := block_write b hx hs ha
  have hwa := hd.start
  have hlen := hd.length
  have hin := hd.inside
  obtain ⟨hstored,hframe⟩ := write_block_ideal hi (source b x s) x.transfer.req.wLength d s.fmc
    hs.idle (by omega) hin (hd.ends.mp hok)
  rw [← hd.fmc] at hstored hframe
  refine ⟨hd.ready,hd.address,fun j hj => ?_,agreeOff_mono (fun y hy => ?_) hframe⟩
  · rw [← source_payload b x s hj, ← hstored j (by omega)]
    have ho := offset_toNat (phys (writeAddr d)) j
    have hoA := offset_toNat A ((x.block-2)*4096+j)
    have hp := phys_toNat (writeAddr d) (by omega)
    have hpA := phys_toNat (byteAddr A x.block j) (by rw [byteAddr]; omega)
    congr 1
    rw [← BitVec.toNat_inj, hpA, byteAddr]
    omega
  · have hfit : x.payload.length ≤ 4096 := x.transfer.fits
    rw [mem_window, rounded] at hy
    rw [mem_slot]
    omega

/-! ## Sequences of blocks -/

section Sequences
variable (b : Board) (hi : Ideal b.hw) (A : Addr) (hA : A.toNat % 256 = 0)
include hi hA

theorem download_keeps (xs : List Exchange) (hx : ∀ x ∈ xs, Firmware A x) (s : Stage2)
    (hs : Ready s) (ha : s.dfu.dfuAddress = A) (hok : Along (exchange b) (EndsWell b) xs s) :
    Ready (run (exchange b) xs s) ∧ (run (exchange b) xs s).dfu.dfuAddress = A := by
  apply run_invariant (exchange b) (fun x t => EndsWell b x t ∧ Firmware A x)
    (fun t => Ready t ∧ t.dfu.dfuAddress = A) _ xs s (along_members _ _ _ xs s hok hx) ⟨hs,ha⟩
  rintro x t ⟨hend,hf⟩ ⟨ht,hat⟩
  obtain ⟨hr,haddr,-⟩ := firmware_stored b hi A hA x hf t ht hat hend
  exact ⟨hr,haddr⟩

theorem download_spares (block : ℕ) (h2 : 2 ≤ block) (xs : List Exchange)
    (hx : ∀ x ∈ xs, Firmware A x) (hne : ∀ x ∈ xs, x.block ≠ block) (s : Stage2) (hs : Ready s)
    (ha : s.dfu.dfuAddress = A) (hok : Along (exchange b) (EndsWell b) xs s) :
    AgreeOn (slot A block) s.fmc.flash (run (exchange b) xs s).fmc.flash := by
  induction xs generalizing s with
  | nil => exact fun _ _ => rfl
  | cons x xs ih =>
    obtain ⟨hend,hrest⟩ := hok
    have hf := hx x (by simp)
    obtain ⟨hr,haddr,-,hframe⟩ := firmware_stored b hi A hA x hf s hs ha hend
    intro y hy
    have htail := ih (fun z hz => hx z (by simp [hz])) (fun z hz => hne z (by simp [hz]))
      (exchange b x s) hr haddr hrest y hy
    rw [run, htail]
    exact hframe y (slots_apart h2 hf.block (hne x (by simp)).symm hy)

theorem download_holds (ys : List Exchange) (x : Exchange) (zs : List Exchange)
    (hx : ∀ z ∈ ys++x::zs, Firmware A z) (hlast : ∀ z ∈ zs, z.block ≠ x.block) (s : Stage2)
    (hs : Ready s) (ha : s.dfu.dfuAddress = A)
    (hok : Along (exchange b) (EndsWell b) (ys++x::zs) s) :
    Holds A x (run (exchange b) (ys++x::zs) s).fmc.flash := by
  obtain ⟨hys,hend,hzs⟩ := (along_append (exchange b) _ ys (x::zs) s).mp hok
  have hf := hx x (by simp)
  obtain ⟨hr,haddr⟩ := download_keeps b hi A hA ys (fun y hy => hx y (by simp [hy])) s hs ha hys
  obtain ⟨hr',haddr',hholds,-⟩ := firmware_stored b hi A hA x hf _ hr haddr hend
  have hspare := download_spares b hi A hA x.block hf.block zs (fun z hz => hx z (by simp [hz]))
    hlast _ hr' haddr' hzs
  intro j hj
  rw [run_append, run, hspare _ (byte_in_slot hf hj)]
  exact hholds j hj

end Sequences

/-- A command that sets the address, and then blocks of firmware from it on. -/
theorem session_holds (b : Board) (hi : Ideal b.hw) (A : Addr) (hA : A.toNat % 256 = 0)
    (x0 : Exchange) (h0 : SetsAddress A x0) (ys : List Exchange) (x : Exchange)
    (zs : List Exchange) (hx : ∀ z ∈ ys++x::zs, Firmware A z)
    (hlast : ∀ z ∈ zs, z.block ≠ x.block) (s : Stage2) (hs : Ready s)
    (hok : Along (exchange b) (EndsWell b) (x0::(ys++x::zs)) s) :
    Holds A x (run (exchange b) (x0::(ys++x::zs)) s).fmc.flash := by
  obtain ⟨-,hr,ha,-⟩ := address_set b A x0 h0 s hs
  exact download_holds b hi A hA ys x zs hx hlast _ hr ha hok.2

theorem run_exchanges (b : Board) (xs : List Exchange) (ps : List Poll)
    (hp : ps.map Poll.event = xs.flatMap Exchange.events) (s : Stage2) :
    run (loopTurn b) ps s = run (exchange b) xs s := by
  rw [run_events, hp, run_flatMap]
  rfl

/-! ## Downloads to a controller that never fails -/

section Reliable
variable (b : Board) (hr : Reliable b.hw) (A : Addr) (hA : A.toNat % 256 = 0)
include hr hA

theorem firmware_ends_well (x : Exchange) (hx : Firmware A x) (s : Stage2) (hs : Ready s)
    (ha : s.dfu.dfuAddress = A) : EndsWell b x s := by
  obtain ⟨d,hd⟩ := block_write b hx hs ha
  have hwa := hd.start
  have hsucceeds := write_block_succeeds hr (source b x s) x.transfer.req.wLength d s.fmc hs.idle
    (by omega) hd.inside
  rw [hd.ends, hsucceeds]
  exact hd.live

theorem download_ends_well (xs : List Exchange) (hx : ∀ x ∈ xs, Firmware A x) (s : Stage2)
    (hs : Ready s) (ha : s.dfu.dfuAddress = A) : Along (exchange b) (EndsWell b) xs s := by
  induction xs generalizing s with
  | nil => trivial
  | cons x xs ih =>
    have hf := hx x (by simp)
    have hend := firmware_ends_well b hr A hA x hf s hs ha
    obtain ⟨hready,haddr,-⟩ := firmware_stored b hr.ideal A hA x hf s hs ha hend
    exact ⟨hend,ih (fun z hz => hx z (by simp [hz])) _ hready haddr⟩

theorem session_ends_well (x0 : Exchange) (h0 : SetsAddress A x0) (xs : List Exchange)
    (hx : ∀ x ∈ xs, Firmware A x) (s : Stage2) (hs : Ready s) :
    Along (exchange b) (EndsWell b) (x0::xs) s := by
  obtain ⟨hend,hready,haddr,-⟩ := address_set b A x0 h0 s hs
  exact ⟨hend,download_ends_well b hr A hA xs hx _ hready haddr⟩

end Reliable

/-! ## A host's own exchanges -/

theorem carries_all (ps : List (List Byte)) :
    Carries ps (ps.map fun p => .out (BitVec.ofNat 16 p.length) (bytesAt p)) := by
  induction ps with
  | nil => exact .nil
  | cons p ps ih => exact .packet ⟨_,rfl,fun _ _ => rfl⟩ ih

/-- One download with its status stage, and nothing in between. -/
def hostExchange (block : BitVec 16) (payload : List Byte) (h0 : payload ≠ [])
    (hfit : payload.length ≤ 4096) : Exchange where
  transfer := {
    req := ⟨0x21,dfuDnload,block,0,BitVec.ofNat 16 payload.length⟩
    payload := payload
    download := by
      have := List.length_pos_of_ne_nil h0
      exact ⟨(by decide : (0x21 : Byte) &&& 0x60 = 0x20),rfl,
        show BitVec.ofNat 16 payload.length ≠ 0 by bv_omega⟩
    toDevice := (by decide : (0x21 : Byte) &&& usbDirIn = 0)
    length := show (BitVec.ofNat 16 payload.length).toNat = payload.length by
      rw [BitVec.toNat_ofNat]
      omega
    fits := hfit }
  data := (packets payload).map fun p => .out (BitVec.ofNat 16 p.length) (bytesAt p)
  carries := carries_all _
  after := [.inDone]
  between := fun e he => by
    rw [List.mem_singleton.mp he]
    exact .inDone

theorem host_polls (block : BitVec 16) (payload : List Byte) (h0 : payload ≠ [])
    (hfit : payload.length ≤ 4096) : (downloadPolls block payload).map Poll.event =
      (hostExchange block payload h0 hfit).events := by
  simp only [downloadPolls, List.map_cons, List.map_append, List.map_map, List.map_nil, setup_poll,
    Exchange.events, hostExchange, in_poll]
  have hp : Poll.event ∘ outPoll = fun p => .out (BitVec.ofNat 16 p.length) (bytesAt p) :=
    funext out_poll
  rw [hp]
  rfl

theorem ready_after (b : Board) (f : Fmc) (hf : Idle f) (before : List Poll)
    (hr : (run (loopTurn b) before (boot f)).reset = false) :
    Ready (run (loopTurn b) before (boot f)) where
  running := hr
  live := run_always (loopTurn b) Settled (settled_loop b) before _ (settled_boot f) hr
  idle := run_always (loopTurn b) (fun s => Idle s.fmc) (loop_idle_fmc b) before _ hf

/-- Download correctness: after a command has set the base address, and any
sequence of blocks of which none ended in an error, every block sent reads as
its last payload. -/
theorem downloads_stored (b : Board) (hi : Ideal b.hw) (f : Fmc) (hf : Idle f)
    (before : List Poll) (hr : (run (loopTurn b) before (boot f)).reset = false)
    (A : Addr) (hA : A.toNat % 256 = 0) (x0 : Exchange) (h0 : SetsAddress A x0)
    (xs : List Exchange) (hx : ∀ x ∈ xs, Firmware A x) (ps : List Poll)
    (hp : ps.map Poll.event = (x0::xs).flatMap Exchange.events)
    (hok : Along (exchange b) (EndsWell b) (x0::xs) (run (loopTurn b) before (boot f)))
    (ys : List Exchange) (x : Exchange) (zs : List Exchange) (hs : xs = ys++x::zs)
    (hlast : ∀ z ∈ zs, z.block ≠ x.block) (j : ℕ) (hj : j < x.payload.length) :
    (run (loopTurn b) (before++ps) (boot f)).fmc.flash (phys (byteAddr A x.block j)) =
      x.payload[j] := by
  subst hs
  have h := session_holds b hi A hA x0 h0 ys x zs hx hlast _ (ready_after b f hf before hr) hok j hj
  rw [run_append, run_exchanges b _ ps hp, h, bytesAt, List.getD_eq_getElem?_getD,
    List.getElem?_eq_getElem hj, Option.getD_some]

/-- Two blocks, the first one sent again with other bytes. -/
theorem resent_block_stored :
    let polls := downloadPolls 0 [0x21,0x00,0x40,0x00,0x00] ++ downloadPolls 2 [1,2,3] ++
      downloadPolls 3 [9] ++ downloadPolls 2 [4,5]
    (run (loopTurn perfectBoard) ([busResetPoll] ++ polls) (perfectBoot fun _ => 0xFF)).fmc.flash
      (phys (byteAddr 0x4000 2 1)) = 5 := by
  have hready := ready_after perfectBoard (resetFmc fun _ => 0xFF) (reset_idle _) [busResetPoll] rfl
  have h0 : SetsAddress 0x4000
      (hostExchange 0 [0x21,0x00,0x40,0x00,0x00] (by decide) (by decide)) :=
    ⟨rfl,by decide,rfl,rfl⟩
  have hx : ∀ x ∈ [hostExchange 2 [1,2,3] (by decide) (by decide),
      hostExchange 3 [9] (by decide) (by decide), hostExchange 2 [4,5] (by decide) (by decide)],
      Firmware 0x4000 x := by
    simp only [List.forall_mem_cons, List.not_mem_nil, false_imp_iff, implies_true, and_true]
    exact ⟨⟨by decide,by decide⟩,⟨by decide,by decide⟩,⟨by decide,by decide⟩⟩
  have hpolls : (downloadPolls 0 [0x21,0x00,0x40,0x00,0x00] ++ downloadPolls 2 [1,2,3] ++
      downloadPolls 3 [9] ++ downloadPolls 2 [4,5]).map Poll.event =
      (hostExchange 0 [0x21,0x00,0x40,0x00,0x00] (by decide) (by decide) ::
        [hostExchange 2 [1,2,3] (by decide) (by decide), hostExchange 3 [9] (by decide) (by decide),
          hostExchange 2 [4,5] (by decide) (by decide)]).flatMap Exchange.events := by
    simp only [List.map_append, List.flatMap_cons, List.flatMap_nil, List.append_nil,
      List.append_assoc]
    rw [host_polls 0, host_polls 2, host_polls 3, host_polls 2]
  exact downloads_stored perfectBoard perfect_ideal (resetFmc fun _ => 0xFF) (reset_idle _)
    [busResetPoll] rfl 0x4000 (by decide) _ h0 _ hx _
    hpolls
    (session_ends_well perfectBoard perfect_reliable 0x4000 (by decide) _ h0 _ hx _ hready)
    [_,_] _ [] rfl (by simp) 1 (by decide)

end Swindle.Download
