import Swindle.UsbDescriptors

/-!
# The polled control endpoint

One poll reads the interrupt flag, the interrupt status, the receive length
and the endpoint buffer, and handles at most one event. The response pointer is
kept as the bytes readable from it: the buffers behind it change only while a
SETUP is handled, which replaces the pointer or leaves it dead. `armed` records
every packet that `ep0_send` has armed so far, and is not part of the program.
-/

set_option autoImplicit false

namespace Swindle.UsbDriver
open Swindle.WordMemory Swindle.DfuHandlers Swindle.UsbDescriptors

def ep0MaxPacket : BitVec 16 := 64

inductive CtrlPhase where
  | ctrlIdle | ctrlDataIn | ctrlDataOut | ctrlStatus
  deriving DecidableEq, Repr

structure Packet where
  bytes : List Byte
  len : BitVec 16
  tog : Bool
  deriving DecidableEq, Repr

structure Usb where
  dfuRxBuffer : ℕ → Byte
  dfuRxOffset : BitVec 16
  ctrlPhase : CtrlPhase
  ctrlDataPtr : List Byte
  ctrlDataLen : BitVec 16
  ctrlDataRemaining : BitVec 16
  ctrlReqType : Byte
  ctrlRequest : Byte
  usbDevAddr : Byte
  ep0Tog : Bool
  devAddr : Byte
  epTxLen : BitVec 16
  epTxCtrl : Byte
  epRxCtrl : Byte
  armed : List Packet

def usbfsEpResAck : Byte := 0
def usbfsEpResNak : Byte := 2
def usbfsEpTog : Byte := 4

/-- The statics at startup after `usb_init`. -/
def usbInit : Usb where
  dfuRxBuffer := fun _ => 0
  dfuRxOffset := 0
  ctrlPhase := .ctrlIdle
  ctrlDataPtr := []
  ctrlDataLen := 0
  ctrlDataRemaining := 0
  ctrlReqType := 0
  ctrlRequest := 0
  usbDevAddr := 0
  ep0Tog := true
  devAddr := 0
  epTxLen := 0
  epTxCtrl := usbfsEpResNak
  epRxCtrl := usbfsEpResAck
  armed := []

def clamp (l : BitVec 16) : BitVec 16 := if ep0MaxPacket < l then ep0MaxPacket else l

def ep0Send (data : List Byte) (len : BitVec 16) (u : Usb) : Usb :=
  let sendLen := clamp len
  { u with epTxLen := sendLen,
           epTxCtrl := usbfsEpResAck ||| (if u.ep0Tog then usbfsEpTog else 0),
           ep0Tog := !u.ep0Tog,
           armed := u.armed ++ [⟨data.take sendLen.toNat,sendLen,u.ep0Tog⟩] }

def ep0Recv (u : Usb) : Usb := { u with epRxCtrl := usbfsEpResAck }

def requestType (r : SetupPacket) : Byte := r.bmRequestType &&& 0x60

def usbDirIn : Byte := 0x80

/-- The driver's and the DFU handler's variables after a request, with the response. -/
def routeRequest (req : SetupPacket) (u : Usb) (d : Dfu) : Usb × Dfu × List Byte :=
  if requestType req = 0x00 then
    let r := handleStdRequest req u.usbDevAddr
    ({ u with usbDevAddr := r.1 }, d, r.2)
  else if requestType req = 0x20 then
    let r := dfuHandleRequest req d
    (u, r.dfu, r.data)
  else (u, d, [])

def startDataIn (data : List Byte) (l : BitVec 16) (u : Usb) : Usb :=
  ep0Send data (clamp l)
    { u with ctrlDataPtr := data, ctrlDataLen := l, ctrlDataRemaining := l,
             ctrlPhase := .ctrlDataIn }

def onSetup (req : SetupPacket) (u : Usb) (d : Dfu) : Usb × Dfu :=
  let u := { u with epTxCtrl := usbfsEpResNak, epRxCtrl := usbfsEpResAck,
                    ctrlReqType := req.bmRequestType, ctrlRequest := req.bRequest,
                    ep0Tog := true }
  let r := routeRequest req u d
  let u := r.1
  let l := BitVec.ofNat 16 r.2.2.length
  if req.wLength = 0 then
    if l = 0 then (ep0Send [] 0 { u with ctrlPhase := .ctrlStatus }, r.2.1)
    else (startDataIn r.2.2 l u, r.2.1)
  else if req.bmRequestType &&& usbDirIn ≠ 0 then
    (startDataIn r.2.2 (if req.wLength < l then req.wLength else l) u, r.2.1)
  else
    (ep0Recv { u with ctrlPhase := .ctrlDataOut, ctrlDataRemaining := req.wLength,
                      dfuRxOffset := 0 }, r.2.1)

/-- The deferred address goes into the register when a request numbered like
SET_ADDRESS ends; the request type is not looked at. -/
def applyAddress (u : Usb) : Usb :=
  if u.ctrlRequest = usbReqSetAddress then { u with devAddr := u.usbDevAddr } else u

def onIn (u : Usb) : Usb :=
  if u.ctrlPhase = .ctrlDataIn ∧ 0 < u.ctrlDataRemaining then
    let u := { u with ctrlDataRemaining := u.ctrlDataRemaining - clamp u.ctrlDataRemaining }
    if 0 < u.ctrlDataRemaining then
      ep0Send (u.ctrlDataPtr.drop (u.ctrlDataLen - u.ctrlDataRemaining).toNat)
        (clamp u.ctrlDataRemaining) u
    else applyAddress { u with ctrlPhase := .ctrlIdle }
  else if u.ctrlPhase = .ctrlStatus then applyAddress { u with ctrlPhase := .ctrlIdle }
  else u

/-- Storing one OUT packet; a packet that does not fit is dropped. -/
def storePacket (rxLen : BitVec 16) (ep0Buffer : ℕ → Byte) (u : Usb) : Usb :=
  if u.dfuRxOffset.toNat + rxLen.toNat ≤ dfuTransferSize.toNat then
    { u with dfuRxBuffer := fun i =>
               if u.dfuRxOffset.toNat ≤ i ∧ i < u.dfuRxOffset.toNat + rxLen.toNat then
                 ep0Buffer (i - u.dfuRxOffset.toNat) else u.dfuRxBuffer i,
             dfuRxOffset := u.dfuRxOffset + rxLen }
  else u

/-- The data stage is over once the counter, less this packet, is zero, or the
packet was short. -/
def DataStageEnds (rxLen : BitVec 16) (u : Usb) : Prop :=
  u.ctrlDataRemaining - rxLen = 0 ∨ rxLen < ep0MaxPacket

instance (rxLen : BitVec 16) (u : Usb) : Decidable (DataStageEnds rxLen u) :=
  inferInstanceAs (Decidable (_ ∨ _))

theorem full_packet_continues {u : Usb} (h : 64 < u.ctrlDataRemaining.toNat) :
    ¬ DataStageEnds 64 u := by
  rintro (h0 | h0)
  · bv_omega
  · exact absurd h0 (by decide)

def takePacket (rxLen : BitVec 16) (ep0Buffer : ℕ → Byte) (u : Usb) : Usb :=
  let v := storePacket rxLen ep0Buffer u
  { v with ctrlDataRemaining := u.ctrlDataRemaining - rxLen }

def onBusReset (u : Usb) : Usb :=
  { u with ep0Tog := true, devAddr := 0, epRxCtrl := usbfsEpResAck, ctrlPhase := .ctrlIdle }

/-- What one poll reads from the peripheral and from the endpoint buffer. -/
structure Poll where
  intFg : Byte
  intSt : Byte
  rxLen : BitVec 16
  ep0Buffer : ℕ → Byte

def usbfsIntFgBusRst : Byte := 1
def usbfsIntFgTransfer : Byte := 2

def pidOut : Byte := 0
def pidIn : Byte := 2
def pidSetup : Byte := 3

def read16 (lo hi : Byte) : BitVec 16 := BitVec.ofNat 16 (lo.toNat + 256*hi.toNat)

def parseSetup (buf : ℕ → Byte) : SetupPacket :=
  ⟨buf 0,buf 1,read16 (buf 2) (buf 3),read16 (buf 4) (buf 5),read16 (buf 6) (buf 7)⟩

/-- The events a poll can find. Suspend, tokens of other endpoints, SOF tokens
and polls without an event are quiet: the driver only clears their flags. -/
inductive Event where
  | setup (req : SetupPacket)
  | inDone
  | out (rxLen : BitVec 16) (buf : ℕ → Byte)
  | busReset
  | quiet

def Poll.event (p : Poll) : Event :=
  if p.intFg &&& usbfsIntFgTransfer ≠ 0 then
    if (p.intSt >>> 4) &&& 0x03 = pidSetup then .setup (parseSetup p.ep0Buffer)
    else if p.intSt &&& 0x0F ≠ 0 then .quiet
    else if (p.intSt >>> 4) &&& 0x03 = pidIn then .inDone
    else if (p.intSt >>> 4) &&& 0x03 = pidOut then .out p.rxLen p.ep0Buffer
    else .quiet
  else if p.intFg &&& usbfsIntFgBusRst ≠ 0 then .busReset
  else .quiet

/-! ## What each handler leaves behind -/

/-- The DFU variables after a request: only class requests reach them. -/
def routeDfu (req : SetupPacket) (d : Dfu) : Dfu :=
  if requestType req = 0x20 then (dfuHandleRequest req d).dfu else d

def routeAddr (req : SetupPacket) (usbDevAddr : Byte) : Byte :=
  if requestType req = 0x00 then (handleStdRequest req usbDevAddr).1 else usbDevAddr

def routeData (req : SetupPacket) (d : Dfu) : List Byte :=
  if requestType req = 0x00 then (handleStdRequest req 0).2
  else if requestType req = 0x20 then (dfuHandleRequest req d).data
  else []

theorem std_data (req : SetupPacket) (a a' : Byte) :
    (handleStdRequest req a).2 = (handleStdRequest req a').2 := by
  simp only [handleStdRequest]
  split_ifs <;> rfl

theorem route_request (req : SetupPacket) (u : Usb) (d : Dfu) : routeRequest req u d =
    ({ u with usbDevAddr := routeAddr req u.usbDevAddr }, routeDfu req d, routeData req d) := by
  simp only [routeRequest, routeAddr, routeDfu, routeData]
  split_ifs with h0 h1
  · rw [h0] at h1
    simp at h1
  · rw [std_data req u.usbDevAddr 0]
  · rfl
  · rfl

def IsDownload (req : SetupPacket) : Prop :=
  requestType req = 0x20 ∧ req.bRequest = dfuDnload ∧ req.wLength ≠ 0

instance (req : SetupPacket) : Decidable (IsDownload req) :=
  inferInstanceAs (Decidable (_ ∧ _ ∧ _))

theorem download_dfu (req : SetupPacket) (d : Dfu) (h : IsDownload req) : routeDfu req d =
    { d with dfuBlockNum := req.wValue.setWidth 32, state := .dfuDnloadSync, status := .ok } := by
  rw [routeDfu, if_pos h.1, dnload_reply req d h.2.1 h.2.2]

theorem route_blockNum (req : SetupPacket) (d : Dfu) : (routeDfu req d).dfuBlockNum =
    if IsDownload req then req.wValue.setWidth 32 else d.dfuBlockNum := by
  split_ifs with h
  · rw [download_dfu req d h]
  · unfold routeDfu
    split_ifs with ht
    · exact request_blockNum req d (fun hd => h ⟨ht,hd⟩)
    · rfl

section Setup
variable (req : SetupPacket) (u : Usb) (d : Dfu)

@[simp] theorem setup_dfu : (onSetup req u d).2 = routeDfu req d := by
  simp only [onSetup, route_request]
  split_ifs <;> rfl

@[simp] theorem setup_reqType : (onSetup req u d).1.ctrlReqType = req.bmRequestType := by
  simp only [onSetup, route_request]
  split_ifs <;> rfl

@[simp] theorem setup_request : (onSetup req u d).1.ctrlRequest = req.bRequest := by
  simp only [onSetup, route_request]
  split_ifs <;> rfl

@[simp] theorem setup_usbDevAddr :
    (onSetup req u d).1.usbDevAddr = routeAddr req u.usbDevAddr := by
  simp only [onSetup, route_request]
  split_ifs <;> rfl

@[simp] theorem setup_devAddr : (onSetup req u d).1.devAddr = u.devAddr := by
  simp only [onSetup, route_request]
  split_ifs <;> rfl

@[simp] theorem setup_rxBuffer : (onSetup req u d).1.dfuRxBuffer = u.dfuRxBuffer := by
  simp only [onSetup, route_request]
  split_ifs <;> rfl

/-- The phase a SETUP packet opens; it never leaves the pipe idle. -/
theorem setup_phase : (onSetup req u d).1.ctrlPhase =
    if req.wLength = 0 then
      if BitVec.ofNat 16 (routeData req d).length = 0 then .ctrlStatus else .ctrlDataIn
    else if req.bmRequestType &&& usbDirIn ≠ 0 then .ctrlDataIn else .ctrlDataOut := by
  simp only [onSetup, route_request]
  split_ifs <;> rfl

theorem setup_not_idle : (onSetup req u d).1.ctrlPhase ≠ .ctrlIdle := by
  rw [setup_phase]
  split_ifs <;> decide

theorem setup_dataOut : (onSetup req u d).1.ctrlPhase = .ctrlDataOut ↔
    req.wLength ≠ 0 ∧ req.bmRequestType &&& usbDirIn = 0 := by
  rw [setup_phase]
  split_ifs <;> simp_all

theorem setup_dataOut_counters (h : (onSetup req u d).1.ctrlPhase = .ctrlDataOut) :
    (onSetup req u d).1.ctrlDataRemaining = req.wLength ∧
      (onSetup req u d).1.dfuRxOffset = 0 := by
  obtain ⟨hl,hd⟩ := (setup_dataOut req u d).mp h
  simp only [onSetup, route_request, if_neg hl, hd]
  exact ⟨rfl,rfl⟩

theorem setup_dataIn_counter (h : (onSetup req u d).1.ctrlPhase = .ctrlDataIn) :
    (onSetup req u d).1.ctrlDataRemaining ≤ BitVec.ofNat 16 (routeData req d).length := by
  simp only [onSetup, route_request, startDataIn, ep0Send, ep0Recv] at h ⊢
  split_ifs at h ⊢ with hl h0 hi hlt
  · exact BitVec.le_refl _
  · exact BitVec.le_of_lt hlt
  · exact BitVec.le_refl _

end Setup

section Frames
variable (u : Usb)

@[simp] theorem in_request : (onIn u).ctrlRequest = u.ctrlRequest := by
  simp only [onIn, applyAddress, ep0Send]
  split_ifs <;> rfl

@[simp] theorem in_reqType : (onIn u).ctrlReqType = u.ctrlReqType := by
  simp only [onIn, applyAddress, ep0Send]
  split_ifs <;> rfl

@[simp] theorem in_usbDevAddr : (onIn u).usbDevAddr = u.usbDevAddr := by
  simp only [onIn, applyAddress, ep0Send]
  split_ifs <;> rfl

@[simp] theorem in_rxBuffer : (onIn u).dfuRxBuffer = u.dfuRxBuffer := by
  simp only [onIn, applyAddress, ep0Send]
  split_ifs <;> rfl

theorem in_dataOut : (onIn u).ctrlPhase = .ctrlDataOut ↔ u.ctrlPhase = .ctrlDataOut := by
  simp only [onIn, applyAddress, ep0Send]
  split_ifs <;> simp_all

theorem in_dataOut_same (h : u.ctrlPhase = .ctrlDataOut) : onIn u = u := by
  simp [onIn, h]

/-- The completions that end a control transfer with an IN packet. -/
def Completes (u : Usb) : Prop :=
  u.ctrlPhase = .ctrlStatus ∨
    u.ctrlPhase = .ctrlDataIn ∧ 0 < u.ctrlDataRemaining ∧ u.ctrlDataRemaining ≤ ep0MaxPacket

instance : Decidable (Completes u) := inferInstanceAs (Decidable (_ ∨ _ ∧ _ ∧ _))

theorem in_devAddr : (onIn u).devAddr =
    if Completes u ∧ u.ctrlRequest = usbReqSetAddress then u.usbDevAddr else u.devAddr := by
  by_cases hp : u.ctrlPhase = .ctrlDataIn ∧ 0 < u.ctrlDataRemaining
  · have hs : ¬ 0 < u.ctrlDataRemaining - clamp u.ctrlDataRemaining ↔
        u.ctrlDataRemaining ≤ ep0MaxPacket := by
      have h64 : ep0MaxPacket = 64 := rfl
      simp only [clamp, h64]
      split_ifs <;> bv_omega
    have hc : Completes u ↔ u.ctrlDataRemaining ≤ ep0MaxPacket := by
      simp only [Completes, hp.1, hp.2, true_and, reduceCtorEq, false_or]
    simp only [onIn, if_pos hp, applyAddress, ep0Send, hc, ← hs]
    split_ifs <;> simp_all
  · by_cases hq : u.ctrlPhase = .ctrlStatus
    · simp only [onIn, hq, applyAddress, Completes]
      split_ifs <;> simp_all
    · have hc : ¬ Completes u := by simp_all [Completes]
      simp only [onIn, if_neg hp, hq, hc]
      simp

@[simp] theorem take_phase (l : BitVec 16) (buf : ℕ → Byte) :
    (takePacket l buf u).ctrlPhase = u.ctrlPhase := by
  simp only [takePacket, storePacket]
  split_ifs <;> rfl

@[simp] theorem take_request (l : BitVec 16) (buf : ℕ → Byte) :
    (takePacket l buf u).ctrlRequest = u.ctrlRequest := by
  simp only [takePacket, storePacket]
  split_ifs <;> rfl

@[simp] theorem take_reqType (l : BitVec 16) (buf : ℕ → Byte) :
    (takePacket l buf u).ctrlReqType = u.ctrlReqType := by
  simp only [takePacket, storePacket]
  split_ifs <;> rfl

@[simp] theorem take_usbDevAddr (l : BitVec 16) (buf : ℕ → Byte) :
    (takePacket l buf u).usbDevAddr = u.usbDevAddr := by
  simp only [takePacket, storePacket]
  split_ifs <;> rfl

@[simp] theorem take_devAddr (l : BitVec 16) (buf : ℕ → Byte) :
    (takePacket l buf u).devAddr = u.devAddr := by
  simp only [takePacket, storePacket]
  split_ifs <;> rfl

@[simp] theorem take_remaining (l : BitVec 16) (buf : ℕ → Byte) :
    (takePacket l buf u).ctrlDataRemaining = u.ctrlDataRemaining - l := rfl

end Frames

end Swindle.UsbDriver
