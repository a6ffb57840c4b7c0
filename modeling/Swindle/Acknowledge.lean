import Swindle.ErasedSectors
import Swindle.DownloadGate
import Swindle.Download
import Swindle.ErrorStates
import Swindle.Reassembly

/-!
# What an acknowledgement stands for

The state moves on with the SETUP packet and with every status request; the work
is done at the end of the OUT data stage. A status request acknowledges the last
download whether its data has come or not, and whether the data handler knew
what to do with it. Where the data is complete and known, it has been acted on.
-/

set_option autoImplicit false

namespace Swindle.Acknowledge
open Swindle.WordMemory Swindle.FlashController Swindle.FlashOperations Swindle.DfuHandlers
open Swindle.FlashFrames Swindle.IdealFlash Swindle.UsbDriver Swindle.StageTwo Swindle.UsbHost
open Swindle.Transfers Swindle.Download Swindle.SectorErase Swindle.ErasedSectors
open Swindle.DownloadGate Swindle.Reassembly Swindle.ErrorStates Swindle.MachineRuns

/-- The most recent class DNLOAD request with a payload, and the bytes that its
data stage has brought. -/
structure LastDownload where
  req : SetupPacket
  bytes : List Byte

namespace LastDownload

def extend (l : LastDownload) (bytes : List Byte) : LastDownload := ⟨l.req,l.bytes ++ bytes⟩

def block (l : LastDownload) : ℕ := l.req.wValue.toNat

def address (l : LastDownload) : Addr :=
  littleEndian (bytesAt l.bytes 1) (bytesAt l.bytes 2) (bytesAt l.bytes 3) (bytesAt l.bytes 4)

end LastDownload

def InStage (u : Usb) : Prop :=
  u.ctrlPhase = .ctrlDataOut ∧ u.ctrlRequest = dfuDnload ∧ u.ctrlReqType &&& 0x60 = 0x20

instance (u : Usb) : Decidable (InStage u) := inferInstanceAs (Decidable (_ ∧ _ ∧ _))

def watchLast (e : Event) (s : Stage2) (w : Option LastDownload) : Option LastDownload :=
  if s.reset then w else
  match e with
  | .setup req => if IsDownload req then some ⟨req,[]⟩ else w
  | .out rxLen buf =>
    if InStage s.usb then w.map (·.extend (packetBytes rxLen buf)) else w
  | _ => w

def lastLoop (b : Board) : Poll → Stage2 × Option LastDownload → Stage2 × Option LastDownload :=
  watched (loopTurn b) fun p => watchLast p.event

/-- All of the data stage has come, and the buffer has kept it. -/
def Whole (l : LastDownload) : Prop :=
  l.bytes.length = l.req.wLength.toNat ∧ l.bytes.length ≤ 4096

def Inside (d : Dfu) (l : LastDownload) (j : ℕ) : Prop :=
  d.dfuAddress.toNat + (l.block-2)*4096 + j < flashEnd.toNat

/-- The payload is whole and names something that the device does: a command, with
its address, or a block that ends inside the flash. The loops over the last sector
of the address space do nothing, so there is nothing to be erased in it. -/
def Sensible (d : Dfu) (m : Memory) (l : LastDownload) : Prop :=
  Whole l ∧
    (l.block = 0 ∧ 5 ≤ l.bytes.length ∧ (bytesAt l.bytes 0 = dfuseCmdErasePage →
        l.address < 0xFFFFF000 ∨ SectorErased m l.address) ∨
      2 ≤ l.block ∧ ∀ j < l.bytes.length, Inside d l j)

def Served (d : Dfu) (m : Memory) (l : LastDownload) : Prop :=
  Whole l ∧
    (l.block = 0 ∧ 5 ≤ l.bytes.length ∧
        (bytesAt l.bytes 0 = dfuseCmdSetAddress ∧ d.dfuAddress = l.address ∨
          bytesAt l.bytes 0 = dfuseCmdErasePage ∧ SectorErased m l.address) ∨
      2 ≤ l.block ∧ ∀ j < l.bytes.length,
        Inside d l j ∧ m (phys (byteAddr d.dfuAddress l.block j)) = bytesAt l.bytes j)

/-- A status request that is answered with status OK and one of the states that
acknowledge a download. -/
def Acknowledges (e : Event) (s : Stage2) : Prop :=
  match e with
  | .setup req => s.reset = false ∧ requestType req = 0x20 ∧ req.bRequest = dfuGetstatus ∧
      (onSetup req s.usb s.dfu).1.ctrlPhase = .ctrlDataIn ∧ s.dfu.status = .ok ∧
      (getstatusState s.dfu.state = .dfuDnbusy ∨ getstatusState s.dfu.state = .dfuDnloadIdle)
  | _ => False

instance (e : Event) (s : Stage2) : Decidable (Acknowledges e s) :=
  match e with
  | .setup _ => inferInstanceAs (Decidable (_ ∧ _ ∧ _ ∧ _ ∧ _ ∧ (_ ∨ _)))
  | .inDone => isFalse id
  | .out _ _ => isFalse id
  | .busReset => isFalse id
  | .quiet => isFalse id

/-- An acknowledgement finds the last download served. -/
def Sound (e : Event) (s : Stage2) (w : Option LastDownload) : Prop :=
  Acknowledges e s → ∃ l, w = some l ∧ Served s.dfu s.fmc.flash l

/-- The host asks for the status only after all of a download that the device
has something to do for. -/
def Prudent (e : Event) (s : Stage2) (w : Option LastDownload) : Prop :=
  Acknowledges e s → ∀ l, w = some l → Sensible s.dfu s.fmc.flash l

instance (l : LastDownload) : Decidable (Whole l) := inferInstanceAs (Decidable (_ ∧ _))

instance (d : Dfu) (l : LastDownload) (j : ℕ) : Decidable (Inside d l j) :=
  inferInstanceAs (Decidable (_ < _))

instance (m : Memory) (addr : Addr) : Decidable (SectorErased m addr) :=
  Nat.decidableBallLT 1024 fun i _ =>
    readWord m (phys (sectorAddr addr) + 4*BitVec.ofNat 32 i) = erasedWord

instance (d : Dfu) (m : Memory) (l : LastDownload) : Decidable (Sensible d m l) :=
  inferInstanceAs (Decidable (Whole l ∧ (_ ∧ _ ∧ (_ → _ ∨ SectorErased m l.address) ∨
    _ ∧ ∀ j < l.bytes.length, Inside d l j)))

instance (e : Event) (s : Stage2) : (w : Option LastDownload) → Decidable (Prudent e s w)
  | none => isTrue nofun
  | some l => decidable_of_iff (Acknowledges e s → Sensible s.dfu s.fmc.flash l)
      ⟨fun h hack _ hl => Option.some.inj hl ▸ h hack,fun h hack => h hack l rfl⟩

theorem served_sensible {d : Dfu} {m : Memory} {l : LastDownload} (h : Served d m l) :
    Sensible d m l := by
  obtain ⟨hwhole,⟨h0,h5,hcmd⟩ | ⟨h2,hin⟩⟩ := h
  · refine ⟨hwhole,Or.inl ⟨h0,h5,fun he => Or.inr ?_⟩⟩
    rcases hcmd with ⟨hset,-⟩ | ⟨-,herased⟩
    · exact absurd (hset.symm.trans he) (by decide)
    · exact herased
  · exact ⟨hwhole,Or.inr ⟨h2,fun j hj => (hin j hj).1⟩⟩

/-! ## One call of the data handler -/

section Call
variable {hw : Controller} (hl : LocalErase hw) (hb : BlockEraseSound hw)
include hl hb

theorem erase_served (addr : Addr) (ha : addr < 0xFFFFF000) (d : Dfu) (f : Fmc) (hi : Idle f)
    (hok : (dfuErasePage hw addr d f).1.state ≠ .dfuError) :
    SectorErased (dfuErasePage hw addr d f).2.flash addr := by
  have hstatus : (dfuErasePage hw addr d f).1.status = .ok := by
    rcases erase_cases hw d f addr with h | ⟨e,-,h⟩
    · rw [h]
      rfl
    · rw [h] at hok
      exact absurd rfl hok
  by_cases hs : StaysLocal f.flash addr
  · exact local_report addr d f hi ha hl hs hstatus
  · simp only [StaysLocal, not_or, not_not] at hs
    obtain ⟨h32,hne⟩ := hs
    have hsec := sectorAddr_toNat addr
    have hphys := phys_cases (sectorAddr addr)
    have hres := erase_32k_result hw (sectorAddr addr) f hi.quiet
    have hflash := performs_flash (erase_32k_performs hw (sectorAddr addr) f hi.quiet)
    simp only [dfuErasePage, eraseSector, if_neg hne, if_pos h32] at hok ⊢
    split_ifs at hok ⊢ with hr
    · rw [hres] at hr
      rw [← sector_erased_iff _ addr ha, pages_erased_iff _ addr ha, hflash]
      rintro x ⟨c,hc,hx⟩
      obtain ⟨k,hk,rfl⟩ := mem_pagesFrom.mp hc
      have hpk := phys_offset (sectorAddr addr) (256*k) (by omega) (by omega)
      apply hb f.log (phys (sectorAddr addr)) f.flash hr
      rw [mem_block] at hx ⊢
      have hmod : (sectorAddr addr).toNat % 32768 = 0 := by bv_omega
      omega
    · exact absurd rfl hok

theorem command_served (data : Source) (d : Dfu) (f : Fmc) (hi : Idle f)
    (ha : data.byte 0 = dfuseCmdErasePage → commandAddr data < 0xFFFFF000 ∨
      SectorErased (dfuCommand hw data d f).2.flash (commandAddr data))
    (hok : (dfuCommand hw data d f).1.state ≠ .dfuError) :
    data.byte 0 = dfuseCmdSetAddress ∧ (dfuCommand hw data d f).1.dfuAddress = commandAddr data ∨
      data.byte 0 = dfuseCmdErasePage ∧
        SectorErased (dfuCommand hw data d f).2.flash (commandAddr data) := by
  by_cases hset : data.byte 0 = dfuseCmdSetAddress
  · left
    rw [dfuCommand, if_pos hset]
    exact ⟨hset,rfl⟩
  · by_cases herase : data.byte 0 = dfuseCmdErasePage
    · right
      rcases ha herase with hlast | hread
      · rw [dfuCommand, if_neg hset, if_pos herase] at hok ⊢
        exact ⟨herase,erase_served hl hb _ hlast d f hi hok⟩
      · exact ⟨herase,hread⟩
    · rw [dfuCommand, if_neg hset, if_neg herase] at hok
      exact absurd rfl hok

end Call

/-- A call of the data handler with the bytes of a sensible download serves it,
or ends in the error state. -/
theorem data_served {hw : Controller} (hl : LocalErase hw) (hb : BlockEraseSound hw)
    (data : Source) (len : BitVec 16) (d : Dfu) (f : Fmc) (hi : Idle f) (l : LastDownload)
    (hnum : d.dfuBlockNum.toNat = l.block) (hlen : len.toNat = l.bytes.length)
    (hpos : 0 < l.bytes.length) (hbytes : ∀ i < l.bytes.length, data.byte i = bytesAt l.bytes i)
    (hok : (dfuHandleData hw data len d f).1.state ≠ .dfuError)
    (hs : Sensible (dfuHandleData hw data len d f).1 (dfuHandleData hw data len d f).2.flash l) :
    Served (dfuHandleData hw data len d f).1 (dfuHandleData hw data len d f).2.flash l := by
  obtain ⟨hwhole,⟨h0,h5,ha⟩ | ⟨h2,hin⟩⟩ := hs
  · refine ⟨hwhole,Or.inl ⟨h0,h5,?_⟩⟩
    have hc : d.dfuBlockNum = 0 ∧ 5 ≤ len := ⟨by bv_omega,by bv_omega⟩
    have haddr : commandAddr data = l.address := by
      rw [commandAddr, assemble_bytes, hbytes 1 (by omega), hbytes 2 (by omega),
        hbytes 3 (by omega), hbytes 4 (by omega)]
      rfl
    rw [dfuHandleData, if_pos hc] at hok ha ⊢
    rw [← haddr, ← hbytes 0 hpos] at ha ⊢
    exact command_served hl hb data d f hi ha hok
  · refine ⟨hwhole,Or.inr ⟨h2,fun j hj => ⟨hin j hj,?_⟩⟩⟩
    have hblock : IsBlock len d := ⟨by bv_omega,by bv_omega⟩
    rw [block_data hw data len d f hblock] at hok hin ⊢
    simp only [Inside, write_address] at hin ⊢
    have hflash : flashEnd.toNat = 0x40000 := rfl
    have hinj := hin j hj
    have hwa := writeAddr_toNat d hblock.1
    have ho := offset_toNat (phys (writeAddr d)) j
    have hob := offset_toNat d.dfuAddress ((l.block-2)*4096+j)
    have hp := phys_toNat (writeAddr d) (by omega)
    have hpb := phys_toNat (byteAddr d.dfuAddress l.block j) (by rw [byteAddr]; omega)
    have hsame : phys (byteAddr d.dfuAddress l.block j) =
        phys (writeAddr d) + BitVec.ofNat 32 j := by
      rw [← BitVec.toNat_inj, hpb, byteAddr]
      omega
    obtain ⟨hend,-,-,hstored,heq⟩ := write_block_ok hw data len d f hok
    rw [hsame, heq, hstored j (by omega), hbytes j hj]

/-! ## Between the request and the acknowledgement -/

def Downloading (st : DfuState) : Prop :=
  st = .dfuDnloadSync ∨ st = .dfuDnbusy ∨ st = .dfuDnloadIdle

instance (st : DfuState) : Decidable (Downloading st) := inferInstanceAs (Decidable (_ ∨ _ ∨ _))

structure Open (u : Usb) (l : LastDownload) : Prop where
  stage : InStage u
  counter : u.ctrlDataRemaining = l.req.wLength - BitVec.ofNat 16 l.bytes.length
  missing : u.ctrlDataRemaining ≠ 0
  stocked : l.bytes.length ≤ 4096 → u.dfuRxOffset.toNat = l.bytes.length ∧
    ∃ old, u.dfuRxBuffer = overlay l.bytes old

/-- As long as the state acknowledges a download, it is the last one, and its data
stage is open, or it has been served if there was something to serve. -/
def Tracked (s : Stage2) (w : Option LastDownload) : Prop :=
  Downloading s.dfu.state → ∃ l, w = some l ∧ s.dfu.dfuBlockNum = l.req.wValue.setWidth 32 ∧
    (Open s.usb l ∨
      ¬ InStage s.usb ∧ (Sensible s.dfu s.fmc.flash l → Served s.dfu s.fmc.flash l))

theorem open_short {u : Usb} {l : LastDownload} (h : Open u l) : ¬ Whole l := by
  rintro ⟨hlen,-⟩
  have hc := h.counter
  rw [hlen, BitVec.ofNat_toNat, BitVec.setWidth_eq, BitVec.sub_self] at hc
  exact h.missing hc

theorem downloading_live {st : DfuState} (h : Downloading st) : ¬ Resets st ∧ st ≠ .dfuError := by
  rcases h with rfl | rfl | rfl <;> decide

theorem downloading_event (b : Board) (e : Event) (s : Stage2) (hr : s.reset = false)
    (h : Downloading (turn b e s).dfu.state) : turn b e s = onEvent b e s := by
  apply turn_event b e s hr
  rw [turn_live b e s hr, afterPoll_eq] at h
  revert h
  cases (onEvent b e s).dfu.state <;> simp [Downloading, settledState, Resets]

theorem getstatus_downloading {st : DfuState} (h : Downloading (getstatusState st)) :
    Downloading st := by
  revert h
  cases st <;> decide

theorem other_request (req : SetupPacket) (d : Dfu) (hn : ¬ IsDownload req)
    (h : Downloading (routeDfu req d).state) : Downloading d.state ∧
      (routeDfu req d).dfuBlockNum = d.dfuBlockNum ∧
      (routeDfu req d).dfuAddress = d.dfuAddress := by
  have hnum := route_blockNum req d
  rw [if_neg hn] at hnum
  refine ⟨?_,hnum,?_⟩
  · unfold routeDfu at h
    split_ifs at h with ht
    · have hreq : ¬ (req.bRequest = dfuDnload ∧ req.wLength ≠ 0) := fun hc => hn ⟨ht,hc⟩
      rw [request_dfu] at h
      cases hst : stateSet req with
      | some st =>
        rw [hst] at h
        rcases stateSet_cases req hst with ⟨rfl,-⟩ | ⟨rfl,-⟩ | ⟨-,hc⟩ | ⟨rfl,-⟩ | ⟨rfl,-⟩
        · exact absurd h (by decide : ¬ Downloading .appDetach)
        · exact absurd h (by decide : ¬ Downloading .dfuManifestSync)
        · exact absurd hc hreq
        · exact absurd h (by decide : ¬ Downloading .dfuUploadIdle)
        · exact absurd h (by decide : ¬ Downloading .dfuIdle)
      | none =>
        rw [hst] at h
        simp only at h
        split_ifs at h
        · exact getstatus_downloading h
        · exact h
    · exact h
  · unfold routeDfu
    split_ifs
    · exact request_address req d
    · rfl

theorem sensible_same {d d' : Dfu} (h : d'.dfuAddress = d.dfuAddress) (m : Memory)
    (l : LastDownload) : Sensible d' m l ↔ Sensible d m l := by simp only [Sensible, Inside, h]

theorem served_same {d d' : Dfu} (h : d'.dfuAddress = d.dfuAddress) (m : Memory)
    (l : LastDownload) : Served d' m l ↔ Served d m l := by simp only [Served, Inside, h]

theorem setup_stage (req : SetupPacket) (u : Usb) (d : Dfu) : InStage (onSetup req u d).1 ↔
    IsDownload req ∧ req.bmRequestType &&& usbDirIn = 0 := by
  rw [InStage, setup_dataOut, setup_request, setup_reqType, IsDownload, requestType]
  tauto

theorem setup_opens (req : SetupPacket) (u : Usb) (d : Dfu) (h : InStage (onSetup req u d).1) :
    Open (onSetup req u d).1 ⟨req,[]⟩ := by
  obtain ⟨hrem,hoff⟩ := setup_dataOut_counters req u d h.1
  refine ⟨h,?_,?_,fun _ => ⟨?_,u.dfuRxBuffer,?_⟩⟩
  · rw [hrem]
    exact (BitVec.sub_zero _).symm
  · rw [hrem]
    exact ((setup_stage req u d).mp h).1.2.2
  · rw [hoff]
    rfl
  · rw [setup_rxBuffer, overlay_nil]

/-- A request opens the stage of a new download, or closes the stage of the last one. -/
theorem setup_tracked (b : Board) (req : SetupPacket) (s : Stage2) (w : Option LastDownload)
    (hr : s.reset = false) (h : Tracked s w) :
    Tracked (turn b (.setup req) s) (watchLast (.setup req) s w) := by
  intro hdown
  have heq := downloading_event b _ s hr hdown
  have hu : (onEvent b (.setup req) s).usb = (onSetup req s.usb s.dfu).1 := event_usb b _ s
  have hd : (onEvent b (.setup req) s).dfu = routeDfu req s.dfu := event_dfu b _ s
  have hf : (onEvent b (.setup req) s).fmc = s.fmc := event_fmc b _ s
  rw [heq, hd] at hdown
  simp only [watchLast, hr, Bool.false_eq_true, if_false, heq, hd, hf, hu]
  by_cases hdl : IsDownload req
  · refine ⟨⟨req,[]⟩,if_pos hdl,by rw [route_blockNum, if_pos hdl],?_⟩
    by_cases hst : InStage (onSetup req s.usb s.dfu).1
    · exact Or.inl (setup_opens req s.usb s.dfu hst)
    · refine Or.inr ⟨hst,fun hs => ?_⟩
      have hlen : 0 = req.wLength.toNat := hs.1.1
      exact absurd (BitVec.eq_of_toNat_eq hlen.symm) hdl.2.2
  · obtain ⟨hdown',hnum,haddr⟩ := other_request req s.dfu hdl hdown
    obtain ⟨l,hl,hblock,hstage⟩ := h hdown'
    refine ⟨l,(if_neg hdl).trans hl,hnum.trans hblock,
      Or.inr ⟨fun hc => hdl ((setup_stage req s.usb s.dfu).mp hc).1,?_⟩⟩
    rw [sensible_same haddr, served_same haddr]
    intro hs
    rcases hstage with hst | hst
    · exact absurd hs.1 (open_short hst)
    · exact hst.2 hs

theorem take_stocked (u : Usb) (l : LastDownload) (h : Open u l) (rxLen : BitVec 16)
    (buf : ℕ → Byte) (hfit : (l.bytes ++ packetBytes rxLen buf).length ≤ 4096) :
    (takePacket rxLen buf u).dfuRxOffset.toNat = (l.bytes ++ packetBytes rxLen buf).length ∧
    ∃ old, (takePacket rxLen buf u).dfuRxBuffer =
      overlay (l.bytes ++ packetBytes rxLen buf) old := by
  rw [List.length_append] at hfit
  obtain ⟨hoff,old,hbuf⟩ := h.stocked (by omega)
  have ht := take_packet u l.bytes (packetBytes rxLen buf) old buf hfit hoff hbuf
    (fun i hi => by rw [packetBytes_length] at hi; exact (packetBytes_at rxLen buf i hi).symm)
  rw [packetBytes_length, BitVec.ofNat_toNat, BitVec.setWidth_eq] at ht
  exact ⟨ht.1,old,ht.2⟩

theorem open_continues (u : Usb) (l : LastDownload) (h : Open u l) (rxLen : BitVec 16)
    (buf : ℕ → Byte) (he : ¬ DataStageEnds rxLen u) :
    Open (outUsb rxLen buf u) (l.extend (packetBytes rxLen buf)) := by
  have hu : outUsb rxLen buf u = ep0Recv (takePacket rxLen buf u) := by
    rw [outUsb, if_pos h.stage.1, if_neg he]
  obtain ⟨hp,hreq,htype⟩ := h.stage
  have hrem := take_remaining u rxLen buf
  rw [hu]
  refine ⟨⟨(take_phase u rxLen buf).trans hp,(take_request u rxLen buf).trans hreq,?_⟩,
    hrem.trans ?_,fun h0 => he (Or.inl (hrem.symm.trans h0)),take_stocked u l h rxLen buf⟩
  · rw [← htype]
    exact congrArg (· &&& 0x60) (take_reqType u rxLen buf)
  · rw [h.counter, LastDownload.extend, List.length_append, packetBytes_length,
      BitVec.ofNat_add, BitVec.ofNat_toNat, BitVec.setWidth_eq]
    exact sub_sub _ _ _

theorem stage_served {b : Board} (hl : LocalErase b.hw) (hb : BlockEraseSound b.hw)
    (rxLen : BitVec 16) (buf : ℕ → Byte) (s : Stage2) (hs : Settled s) (hi : Idle s.fmc)
    (hr : s.reset = false) (l : LastDownload) (h : Open s.usb l)
    (hnum : s.dfu.dfuBlockNum = l.req.wValue.setWidth 32) (he : DataStageEnds rxLen s.usb)
    (hok : (turn b (.out rxLen buf) s).dfu.state ≠ .dfuError)
    (hsens : Sensible (turn b (.out rxLen buf) s).dfu (turn b (.out rxLen buf) s).fmc.flash
      (l.extend (packetBytes rxLen buf))) :
    Served (turn b (.out rxLen buf) s).dfu (turn b (.out rxLen buf) s).fmc.flash
      (l.extend (packetBytes rxLen buf)) := by
  have hc : CallsData rxLen s.usb := ⟨h.stage.1,he,h.stage.2.1⟩
  obtain ⟨hd,hf⟩ := turn_handed b (.out rxLen buf) s hs _ _ (if_pos ⟨hr,hc⟩)
  obtain ⟨hoff,old,hbuf⟩ := take_stocked s.usb l h rxLen buf hsens.1.2
  have hpos : 0 < (l.bytes ++ packetBytes rxLen buf).length := by
    by_contra h0
    have hlen : (l.bytes ++ packetBytes rxLen buf).length = l.req.wLength.toNat := hsens.1.1
    rw [List.length_append] at h0 hlen
    have hcount := h.counter
    rw [show l.bytes.length = 0 by omega] at hcount
    exact h.missing (by bv_omega)
  have hblock : s.dfu.dfuBlockNum.toNat = l.req.wValue.toNat := by
    rw [hnum, BitVec.toNat_setWidth]
    omega
  rw [hd] at hok
  rw [hd, hf] at hsens ⊢
  apply data_served hl hb _ _ s.dfu s.fmc hi (l.extend (packetBytes rxLen buf)) hblock hoff hpos
    _ hok hsens
  intro i hlt
  rw [rxSource, hbuf]
  exact overlay_payload hlt

/-- A step that leaves the DFU variables and the flash alone, and leaves the stage
as it is or closes it. -/
theorem frame_tracked {s s' : Stage2} {w : Option LastDownload} (hd : s'.dfu = s.dfu)
    (hf : s'.fmc = s.fmc) (hu : s'.usb = s.usb ∨ ¬ InStage s'.usb) (h : Tracked s w) :
    Tracked s' w := by
  intro hdown
  rw [hd] at hdown
  obtain ⟨l,hw,hnum,hst⟩ := h hdown
  rw [hd, hf]
  refine ⟨l,hw,hnum,?_⟩
  rcases hu with hu | hu
  · rwa [hu]
  · refine Or.inr ⟨hu,fun hs => ?_⟩
    rcases hst with ho | ⟨-,hserved⟩
    · exact absurd hs.1 (open_short ho)
    · exact hserved hs

theorem foreign_out {rxLen : BitVec 16} {buf : ℕ → Byte} {s : Stage2}
    (hr : s.reset = false) (hn : ¬ Stray (.out rxLen buf) s) (hst : ¬ InStage s.usb) :
    ¬ CallsData rxLen s.usb := by
  intro hc
  by_cases ht : s.usb.ctrlReqType &&& 0x60 = 0x20
  · exact hst ⟨hc.1,hc.2.2,ht⟩
  · exact hn ⟨hr,hc,ht⟩

theorem out_stage {rxLen : BitVec 16} {buf : ℕ → Byte} {u : Usb}
    (h : InStage (outUsb rxLen buf u)) : InStage u := by
  rw [InStage, out_request, out_reqType] at h
  exact ⟨out_dataOut h.1,h.2⟩

theorem out_tracked {b : Board} (hl : LocalErase b.hw) (hb : BlockEraseSound b.hw)
    (rxLen : BitVec 16) (buf : ℕ → Byte) (s : Stage2) (w : Option LastDownload)
    (hs : Settled s) (hi : Idle s.fmc) (hr : s.reset = false)
    (hn : ¬ Stray (.out rxLen buf) s) (h : Tracked s w) :
    Tracked (turn b (.out rxLen buf) s) (watchLast (.out rxLen buf) s w) := by
  simp only [watchLast, hr, Bool.false_eq_true, if_false]
  by_cases hst : InStage s.usb
  · rw [if_pos hst]
    by_cases he : DataStageEnds rxLen s.usb
    · intro hdown
      have hc : CallsData rxLen s.usb := ⟨hst.1,he,hst.2.1⟩
      have hok := (downloading_live hdown).2
      have heq := downloading_event b _ s hr hdown
      obtain ⟨hd,-⟩ := turn_handed b (.out rxLen buf) s hs _ _ (if_pos ⟨hr,hc⟩)
      have hstate : (turn b (.out rxLen buf) s).dfu.state = s.dfu.state := by
        rw [hd] at hok ⊢
        exact (data_state _ _ _ _ _).resolve_right hok
      rw [hstate] at hdown
      obtain ⟨l,rfl,hnum,ho | ⟨hns,-⟩⟩ := h hdown
      · refine ⟨l.extend (packetBytes rxLen buf),rfl,?_,Or.inr ⟨?_,?_⟩⟩
        · rw [hd, data_blockNum]
          exact hnum
        · rw [heq, event_usb]
          intro hin
          exact absurd (calls_idle hc) (by rw [hin.1]; decide)
        · exact stage_served hl hb rxLen buf s hs hi hr l ho hnum he hok
      · exact absurd hst hns
    · intro hdown
      rw [turn_out b rxLen buf s hr (hs hr) (fun hc => he hc.2.1)] at hdown ⊢
      obtain ⟨l,rfl,hnum,ho | ⟨hns,-⟩⟩ := h hdown
      · exact ⟨_,rfl,hnum,Or.inl (open_continues s.usb l ho rxLen buf he)⟩
      · exact absurd hst hns
  · rw [if_neg hst, turn_out b rxLen buf s hr (hs hr) (foreign_out hr hn hst)]
    exact frame_tracked (s := s) rfl rfl (Or.inr fun hin => hst (out_stage hin)) h

theorem turn_tracked {b : Board} (hl : LocalErase b.hw) (hb : BlockEraseSound b.hw) (e : Event)
    (s : Stage2) (w : Option LastDownload) (hs : Settled s) (hi : Idle s.fmc)
    (hn : ¬ Stray e s) (h : Tracked s w) : Tracked (turn b e s) (watchLast e s w) := by
  cases hr : s.reset with
  | true =>
    simp only [turn_reset b e s hr, watchLast, hr, if_true]
    exact h
  | false =>
    cases e with
    | setup req => exact setup_tracked b req s w hr h
    | out rxLen buf => exact out_tracked hl hb rxLen buf s w hs hi hr hn h
    | inDone =>
      have hw : watchLast .inDone s w = w := ite_self w
      rw [turn_event b .inDone s hr (hs hr), hw]
      apply frame_tracked (event_dfu b .inDone s) (event_fmc b .inDone s) _ h
      by_cases hst : InStage s.usb
      · exact Or.inl (in_dataOut_same s.usb hst.1)
      · refine Or.inr fun hin => hst ⟨(in_dataOut s.usb).mp hin.1,?_⟩
        rw [← in_request s.usb, ← in_reqType s.usb]
        exact hin.2
    | busReset =>
      have hw : watchLast .busReset s w = w := ite_self w
      rw [turn_event b .busReset s hr (hs hr), hw]
      exact frame_tracked (event_dfu b .busReset s) (event_fmc b .busReset s)
        (Or.inr fun hin => absurd hin.1 (by simp [onEvent, onBusReset])) h
    | quiet =>
      have hw : watchLast .quiet s w = w := ite_self w
      rw [turn_event b .quiet s hr (hs hr), hw]
      exact h

/-! ## Runs -/

theorem acknowledges_downloading {e : Event} {s : Stage2} (h : Acknowledges e s) :
    Downloading s.dfu.state := by
  cases e with
  | setup req => exact getstatus_downloading (Or.inr h.2.2.2.2.2)
  | _ => exact absurd h id

theorem sound_prudent (e : Event) (s : Stage2) (w : Option LastDownload) (h : Sound e s w) :
    Prudent e s w := by
  intro hack l hw
  obtain ⟨l',hw',hserved⟩ := h hack
  cases hw.symm.trans hw'
  exact served_sensible hserved

theorem prudent_sound (e : Event) (s : Stage2) (w : Option LastDownload) (ht : Tracked s w)
    (h : Prudent e s w) : Sound e s w := by
  intro hack
  obtain ⟨l,hw,-,hopen | ⟨-,hserved⟩⟩ := ht (acknowledges_downloading hack)
  · exact absurd (h hack l hw).1 (open_short hopen)
  · exact ⟨l,hw,hserved (h hack l hw)⟩

/-- Along a run in which no other request reaches the data handler, every
acknowledgement stands for a download that has been served, exactly when every
acknowledgement is asked for after a sensible download. -/
theorem acknowledged_served (b : Board) (hl : LocalErase b.hw) (hb : BlockEraseSound b.hw)
    (f : Fmc) (hi : Idle f) (ps : List Poll)
    (hn : Along (lastLoop b) (fun p q => ¬ Stray p.event q.1) ps (boot f,none)) :
    Along (lastLoop b) (fun p q => Sound p.event q.1 q.2) ps (boot f,none) ↔
      Along (lastLoop b) (fun p q => Prudent p.event q.1 q.2) ps (boot f,none) := by
  constructor
  · apply along_mono
    intro p q
    exact sound_prudent p.event q.1 q.2
  · intro h
    apply along_invariant _ _ (fun q => Settled q.1 ∧ Idle q.1.fmc ∧ Tracked q.1 q.2) _ _ _ ps _
      (along_and _ _ _ ps _ hn h) ⟨settled_boot f,hi,fun hc => absurd hc (by decide : ¬ Downloading .dfuIdle)⟩
    · rintro p q ⟨hp,-⟩ ⟨hs,hq,ht⟩
      simp only [lastLoop, watched, loop_event]
      exact ⟨settled_turn b p.event q.1 hs,turn_idle_fmc b p.event q.1 hq,
        turn_tracked hl hb p.event q.1 q.2 hs hq hp ht⟩
    · rintro p q ⟨-,hp⟩ ⟨-,-,ht⟩
      exact prudent_sound p.event q.1 q.2 ht hp

/-- SET_ADDRESS 0x4000 and a block of one byte, each with a status request. -/
theorem one_byte_acknowledged :
    let ps := downloadPolls 0 [dfuseCmdSetAddress,0,0x40,0,0] ++ statusPolls ++
      downloadPolls 2 [0xAA] ++ statusPolls
    Along (lastLoop perfectBoard) (fun p q => Sound p.event q.1 q.2) ps
      (perfectBoot fun _ => 0xFF,none) :=
  (acknowledged_served perfectBoard (local_erase perfect_local) perfect_block_sound _
    (reset_idle _) _ (by decide +kernel)).mpr (by decide +kernel)

def withheldBlock : List Poll :=
  [setupPoll ⟨0x21,dfuDnload,2,0,100⟩,setupPoll ⟨0xA1,dfuGetstatus,0,0,6⟩]

theorem withheld_block_acknowledged : ¬ ∀ (b : Board) (f : Fmc),
    LocalErase b.hw → BlockEraseSound b.hw → Idle f → ∀ ps : List Poll,
    Along (lastLoop b) (fun p q => Sound p.event q.1 q.2) ps (boot f,none) := by
  intro h
  obtain ⟨-,hs,-⟩ := h perfectBoard (resetFmc fun _ => 0xFF) (local_erase perfect_local)
    perfect_block_sound (reset_idle _) withheldBlock
  obtain ⟨l,hl,hserved⟩ := hs (by decide +kernel)
  cases hl
  exact absurd hserved.1.1 (by decide)

end Swindle.Acknowledge
