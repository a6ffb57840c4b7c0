import Swindle.MachineRuns
import Swindle.FlashFrames
import Swindle.UsbDriver

/-!
# Stage two: the poll loop

The driver, the DFU handlers and the flash controller make one machine, whose
input at each turn of the main loop is what the poll finds in the peripheral.
A call of `system_reset` does not return, so a reset machine stays as it is.
-/

set_option autoImplicit false

namespace Swindle.StageTwo
open Swindle.WordMemory Swindle.FlashController Swindle.FlashOperations Swindle.DfuHandlers
open Swindle.FlashFrames Swindle.UsbDriver Swindle.MachineRuns

/-- The hardware, and where the linker has put the word-aligned receive buffer. -/
structure Board where
  hw : Controller
  dfuRxBuffer : Addr
  aligned : dfuRxBuffer &&& 3 = 0

/-- A call of `dfu_handle_data`, as it finds the block number. -/
structure DataCall where
  block : BitVec 32
  len : BitVec 16
  deriving DecidableEq, Repr

/-- `handled` lists the calls of `dfu_handle_data`; it is not part of the program. -/
structure Stage2 where
  usb : Usb
  dfu : Dfu
  fmc : Fmc
  handled : List DataCall
  reset : Bool

def boot (f : Fmc) : Stage2 := ⟨usbInit,Dfu.init,f,[],false⟩

def rxSource (b : Board) (u : Usb) : Source := ⟨b.dfuRxBuffer,u.dfuRxBuffer⟩

def handleData (b : Board) (len : BitVec 16) (s : Stage2) : Stage2 :=
  let r := dfuHandleData b.hw (rxSource b s.usb) len s.dfu s.fmc
  { s with dfu := r.1, fmc := r.2, handled := s.handled ++ [⟨s.dfu.dfuBlockNum,len⟩] }

def onOut (b : Board) (rxLen : BitVec 16) (ep0Buffer : ℕ → Byte) (s : Stage2) : Stage2 :=
  if s.usb.ctrlPhase = .ctrlDataOut then
    let u := takePacket rxLen ep0Buffer s.usb
    if DataStageEnds rxLen s.usb then
      let s := { s with usb := u }
      let s :=
        if u.ctrlRequest = dfuDnload ∧ 0 < u.dfuRxOffset then handleData b u.dfuRxOffset s
        else if u.ctrlRequest = dfuDnload ∧ u.dfuRxOffset = 0 then handleData b 0 s
        else s
      { s with usb := ep0Send [] 0 { s.usb with ctrlPhase := .ctrlIdle } }
    else { s with usb := ep0Recv u }
  else s

def doUsbPoll (b : Board) (p : Poll) (s : Stage2) : Stage2 :=
  if p.intFg &&& usbfsIntFgTransfer ≠ 0 then
    let ep := p.intSt &&& 0x0F
    let token := (p.intSt >>> 4) &&& 0x03
    if token = pidSetup then
      let r := onSetup (parseSetup p.ep0Buffer) s.usb s.dfu
      { s with usb := r.1, dfu := r.2 }
    else if token = pidIn then
      if ep = 0 then { s with usb := onIn s.usb } else s
    else if token = pidOut then
      if ep = 0 then onOut b p.rxLen p.ep0Buffer s else s
    else s
  else if p.intFg &&& usbfsIntFgBusRst ≠ 0 then { s with usb := onBusReset s.usb }
  else s

def systemReset (s : Stage2) : Stage2 := { s with reset := true }

/-- The tests that follow the poll in the main loop. -/
def afterPoll (s : Stage2) : Stage2 :=
  let s :=
    if s.dfu.state = .dfuManifestSync then
      { s with dfu := { s.dfu with state := .dfuManifestWaitReset } }
    else s
  if s.dfu.state = .dfuManifestWaitReset then systemReset s
  else if s.dfu.state = .appDetach then systemReset s
  else s

/-- One turn of the loop of `stage2_main`. -/
def loopTurn (b : Board) (p : Poll) (s : Stage2) : Stage2 :=
  if s.reset then s else afterPoll (doUsbPoll b p s)

def onEvent (b : Board) : Event → Stage2 → Stage2
  | .setup req, s =>
    let r := onSetup req s.usb s.dfu
    { s with usb := r.1, dfu := r.2 }
  | .inDone, s => { s with usb := onIn s.usb }
  | .out rxLen buf, s => onOut b rxLen buf s
  | .busReset, s => { s with usb := onBusReset s.usb }
  | .quiet, s => s

def turn (b : Board) (e : Event) (s : Stage2) : Stage2 :=
  if s.reset then s else afterPoll (onEvent b e s)

theorem poll_event (b : Board) (p : Poll) (s : Stage2) :
    doUsbPoll b p s = onEvent b p.event s := by
  simp only [doUsbPoll, Poll.event]
  split_ifs <;> first | rfl | contradiction

theorem loop_event (b : Board) (p : Poll) (s : Stage2) :
    loopTurn b p s = turn b p.event s := by
  rw [loopTurn, turn, poll_event]

/-- Runs of the loop are runs over the events its polls find. -/
theorem run_events (b : Board) (ps : List Poll) (s : Stage2) :
    run (loopTurn b) ps s = run (turn b) (ps.map Poll.event) s := by
  induction ps generalizing s with
  | nil => rfl
  | cons p ps ih => rw [run, List.map_cons, run, loop_event, ih]

/-! ## What one turn does -/

/-- This OUT packet makes the driver call `dfu_handle_data`. -/
def CallsData (rxLen : BitVec 16) (u : Usb) : Prop :=
  u.ctrlPhase = .ctrlDataOut ∧ DataStageEnds rxLen u ∧ u.ctrlRequest = dfuDnload

instance (rxLen : BitVec 16) (u : Usb) : Decidable (CallsData rxLen u) :=
  inferInstanceAs (Decidable (_ ∧ _ ∧ _))

/-- The driver's own part of an OUT packet. -/
def outUsb (rxLen : BitVec 16) (buf : ℕ → Byte) (u : Usb) : Usb :=
  if u.ctrlPhase = .ctrlDataOut then
    if DataStageEnds rxLen u then
      ep0Send [] 0 { takePacket rxLen buf u with ctrlPhase := .ctrlIdle }
    else ep0Recv (takePacket rxLen buf u)
  else u

theorem out_more {rxLen : BitVec 16} (buf : ℕ → Byte) {u : Usb} (hp : u.ctrlPhase = .ctrlDataOut)
    (hends : ¬ DataStageEnds rxLen u) : outUsb rxLen buf u = ep0Recv (takePacket rxLen buf u) := by
  rw [outUsb, if_pos hp, if_neg hends]

@[simp] theorem out_devAddr (rxLen : BitVec 16) (buf : ℕ → Byte) (u : Usb) :
    (outUsb rxLen buf u).devAddr = u.devAddr := by
  simp only [outUsb, ep0Send, ep0Recv]
  split_ifs <;> simp

@[simp] theorem out_usbDevAddr (rxLen : BitVec 16) (buf : ℕ → Byte) (u : Usb) :
    (outUsb rxLen buf u).usbDevAddr = u.usbDevAddr := by
  simp only [outUsb, ep0Send, ep0Recv]
  split_ifs <;> simp

@[simp] theorem out_request (rxLen : BitVec 16) (buf : ℕ → Byte) (u : Usb) :
    (outUsb rxLen buf u).ctrlRequest = u.ctrlRequest := by
  simp only [outUsb, ep0Send, ep0Recv]
  split_ifs <;> simp

@[simp] theorem out_reqType (rxLen : BitVec 16) (buf : ℕ → Byte) (u : Usb) :
    (outUsb rxLen buf u).ctrlReqType = u.ctrlReqType := by
  simp only [outUsb, ep0Send, ep0Recv]
  split_ifs <;> simp

theorem out_dataOut {rxLen : BitVec 16} {buf : ℕ → Byte} {u : Usb}
    (h : (outUsb rxLen buf u).ctrlPhase = .ctrlDataOut) : u.ctrlPhase = .ctrlDataOut := by
  by_contra hc
  rw [outUsb, if_neg hc] at h
  exact hc h

/-- The call sees the receive buffer as this packet leaves it. -/
def dataCall (b : Board) (rxLen : BitVec 16) (buf : ℕ → Byte) (s : Stage2) : Stage2 :=
  let u := takePacket rxLen buf s.usb
  handleData b u.dfuRxOffset { s with usb := u }

/-- The two calls of the driver differ in how they spell the length only. -/
theorem data_branches (b : Board) (request : Byte) (offset : BitVec 16) (s : Stage2) :
    (if request = dfuDnload ∧ 0 < offset then handleData b offset s
      else if request = dfuDnload ∧ offset = 0 then handleData b 0 s else s) =
    if request = dfuDnload then handleData b offset s else s := by
  by_cases h0 : offset = 0
  · subst h0
    simp
  · have hlt : 0 < offset := by bv_omega
    simp only [h0, hlt, and_true, and_false, if_false]

theorem out_eq (b : Board) (rxLen : BitVec 16) (buf : ℕ → Byte) (s : Stage2) :
    onOut b rxLen buf s =
      { if CallsData rxLen s.usb then dataCall b rxLen buf s else s with
        usb := outUsb rxLen buf s.usb } := by
  have ht : (takePacket rxLen buf s.usb).ctrlRequest = s.usb.ctrlRequest := take_request _ _ _
  simp only [onOut, outUsb, CallsData, data_branches]
  by_cases hp : s.usb.ctrlPhase = .ctrlDataOut
  · by_cases he : DataStageEnds rxLen s.usb
    · simp only [hp, he, true_and, if_true]
      by_cases hr : s.usb.ctrlRequest = dfuDnload
      · rw [if_pos hr, if_pos (ht.trans hr)]
        rfl
      · rw [if_neg hr, if_neg (fun h => hr (ht.symm.trans h))]
    · simp only [hp, he, if_true, if_false, false_and, and_false]
  · simp only [hp, if_false, false_and]

def settledState (st : DfuState) : DfuState :=
  if st = .dfuManifestSync then .dfuManifestWaitReset else st

def Resets (st : DfuState) : Prop :=
  st = .dfuManifestSync ∨ st = .dfuManifestWaitReset ∨ st = .appDetach

instance (st : DfuState) : Decidable (Resets st) := inferInstanceAs (Decidable (_ ∨ _ ∨ _))

theorem afterPoll_eq (s : Stage2) : afterPoll s =
    { s with dfu := { s.dfu with state := settledState s.dfu.state },
             reset := if Resets s.dfu.state then true else s.reset } := by
  obtain ⟨u,d,f,hs,r⟩ := s
  obtain ⟨st,e,a,n⟩ := d
  cases st <;> simp [afterPoll, settledState, Resets, systemReset]

@[simp] theorem afterPoll_usb (s : Stage2) : (afterPoll s).usb = s.usb := by rw [afterPoll_eq]
@[simp] theorem afterPoll_fmc (s : Stage2) : (afterPoll s).fmc = s.fmc := by rw [afterPoll_eq]
@[simp] theorem afterPoll_handled (s : Stage2) : (afterPoll s).handled = s.handled := by
  rw [afterPoll_eq]

theorem afterPoll_same (s : Stage2) (h : ¬ Resets s.dfu.state) : afterPoll s = s := by
  have hs : settledState s.dfu.state = s.dfu.state := if_neg fun hm => h (Or.inl hm)
  rw [afterPoll_eq, hs, if_neg h]

theorem turn_reset (b : Board) (e : Event) (s : Stage2) (h : s.reset = true) :
    turn b e s = s := if_pos h

theorem turn_live (b : Board) (e : Event) (s : Stage2) (h : s.reset = false) :
    turn b e s = afterPoll (onEvent b e s) := by
  rw [turn, h]
  rfl

theorem turn_event (b : Board) (e : Event) (s : Stage2) (hr : s.reset = false)
    (h : ¬ Resets (onEvent b e s).dfu.state) : turn b e s = onEvent b e s := by
  rw [turn_live b e s hr, afterPoll_same _ h]

def Settled (s : Stage2) : Prop := s.reset = false → ¬ Resets s.dfu.state

theorem settled_boot (f : Fmc) : Settled (boot f) :=
  fun _ => show ¬ Resets .dfuIdle by decide

theorem settled_afterPoll (s : Stage2) : Settled (afterPoll s) := by
  intro h
  by_cases hr : Resets s.dfu.state
  · rw [afterPoll_eq, if_pos hr] at h
    exact absurd h (by simp)
  · rwa [afterPoll_same s hr]

theorem settled_turn (b : Board) (e : Event) (s : Stage2) (hs : Settled s) :
    Settled (turn b e s) := by
  unfold turn
  split_ifs
  · exact hs
  · exact settled_afterPoll _

theorem settled_loop (b : Board) (p : Poll) (s : Stage2) (hs : Settled s) :
    Settled (loopTurn b p s) := by
  rw [loop_event]
  exact settled_turn b _ s hs

theorem turn_quiet (b : Board) (s : Stage2) (hs : Settled s) : turn b .quiet s = s := by
  cases h : s.reset
  · rw [turn_live b _ s h]
    exact afterPoll_same s (hs h)
  · exact turn_reset b _ s h

/-- Only a class request or a data call moves the DFU variables. -/
theorem event_dfu (b : Board) (e : Event) (s : Stage2) : (onEvent b e s).dfu =
    match e with
    | .setup req => routeDfu req s.dfu
    | .out l buf => if CallsData l s.usb then (dataCall b l buf s).dfu else s.dfu
    | _ => s.dfu := by
  cases e with
  | setup req => exact setup_dfu req _ _
  | out l buf =>
    simp only [onEvent, out_eq]
    split_ifs <;> rfl
  | inDone => rfl
  | busReset => rfl
  | quiet => rfl

theorem event_fmc (b : Board) (e : Event) (s : Stage2) : (onEvent b e s).fmc =
    match e with
    | .out l buf => if CallsData l s.usb then (dataCall b l buf s).fmc else s.fmc
    | _ => s.fmc := by
  cases e with
  | out l buf =>
    simp only [onEvent, out_eq]
    split_ifs <;> rfl
  | setup req => rfl
  | inDone => rfl
  | busReset => rfl
  | quiet => rfl

theorem event_usb (b : Board) (e : Event) (s : Stage2) : (onEvent b e s).usb =
    match e with
    | .setup req => (onSetup req s.usb s.dfu).1
    | .inDone => onIn s.usb
    | .out l buf => outUsb l buf s.usb
    | .busReset => onBusReset s.usb
    | .quiet => s.usb := by
  cases e with
  | out l buf =>
    simp only [onEvent, out_eq]
  | setup req => rfl
  | inDone => rfl
  | busReset => rfl
  | quiet => rfl

theorem turn_usb (b : Board) (e : Event) (s : Stage2) (hr : s.reset = false) : (turn b e s).usb =
    match e with
    | .setup req => (onSetup req s.usb s.dfu).1
    | .inDone => onIn s.usb
    | .out l buf => outUsb l buf s.usb
    | .busReset => onBusReset s.usb
    | .quiet => s.usb := by
  rw [turn_live b e s hr, afterPoll_usb, event_usb]

theorem calls_idle {rxLen : BitVec 16} {buf : ℕ → Byte} {u : Usb} (h : CallsData rxLen u) :
    (outUsb rxLen buf u).ctrlPhase = .ctrlIdle := by
  simp [outUsb, h.1, h.2.1, ep0Send]

@[simp] theorem event_reset (b : Board) (e : Event) (s : Stage2) :
    (onEvent b e s).reset = s.reset := by
  cases e with
  | out l buf =>
    simp only [onEvent, out_eq]
    split_ifs <;> rfl
  | setup req => rfl
  | inDone => rfl
  | busReset => rfl
  | quiet => rfl

def handedOver (b : Board) (e : Event) (s : Stage2) : Option (Source × BitVec 16) :=
  match e with
  | .out l buf =>
    if s.reset = false ∧ CallsData l s.usb then
      let u := takePacket l buf s.usb
      some (rxSource b u,u.dfuRxOffset)
    else none
  | _ => none

theorem handed_reset (b : Board) (e : Event) (s : Stage2) (hr : s.reset = true) :
    handedOver b e s = none := by
  cases e <;> simp [handedOver, hr]

theorem turn_fmc (b : Board) (e : Event) (s : Stage2) : (turn b e s).fmc =
    match handedOver b e s with
    | some (data,len) => (dfuHandleData b.hw data len s.dfu s.fmc).2
    | none => s.fmc := by
  cases hr : s.reset with
  | true =>
    rw [turn_reset b e s hr, handed_reset b e s hr]
  | false =>
    rw [turn_live b e s hr, afterPoll_fmc, event_fmc]
    cases e with
    | out l buf =>
      simp only [handedOver, hr, true_and]
      split_ifs <;> rfl
    | _ => rfl

theorem turn_handled (b : Board) (e : Event) (s : Stage2) : (turn b e s).handled =
    match handedOver b e s with
    | some (_,len) => s.handled ++ [⟨s.dfu.dfuBlockNum,len⟩]
    | none => s.handled := by
  cases hr : s.reset with
  | true =>
    rw [turn_reset b e s hr, handed_reset b e s hr]
  | false =>
    rw [turn_live b e s hr, afterPoll_handled]
    cases e with
    | out l buf =>
      simp only [onEvent, out_eq, handedOver, hr, true_and]
      split_ifs <;> rfl
    | _ => rfl

theorem not_resets_error : ¬ Resets .dfuError := by decide

theorem data_live (hw : Controller) (data : Source) (len : BitVec 16) (d : Dfu) (f : Fmc)
    (h : ¬ Resets d.state) : ¬ Resets (dfuHandleData hw data len d f).1.state := by
  rcases data_state hw data len d f with hq | hq
  · rwa [hq]
  · rw [hq]
    exact not_resets_error

theorem turn_handed (b : Board) (e : Event) (s : Stage2) (hs : Settled s) (data : Source)
    (len : BitVec 16) (h : handedOver b e s = some (data,len)) :
    (turn b e s).dfu = (dfuHandleData b.hw data len s.dfu s.fmc).1 ∧
      (turn b e s).fmc = (dfuHandleData b.hw data len s.dfu s.fmc).2 := by
  have hf := turn_fmc b e s
  rw [h] at hf
  refine ⟨?_,hf⟩
  cases e with
  | out l buf =>
    simp only [handedOver] at h
    split_ifs at h with hc
    have hd : (onEvent b (.out l buf) s).dfu = (dfuHandleData b.hw data len s.dfu s.fmc).1 := by
      rw [event_dfu]
      simp only [if_pos hc.2]
      cases h
      rfl
    have hn := data_live b.hw data len s.dfu s.fmc (hs hc.1)
    rw [turn_event b _ s hc.1 (hd ▸ hn), hd]
  | setup req => simp [handedOver] at h
  | inDone => simp [handedOver] at h
  | busReset => simp [handedOver] at h
  | quiet => simp [handedOver] at h

theorem turn_commits (b : Board) (e : Event) (s : Stage2) (hi : Idle s.fmc) :
    ∃ ops, Performs b.hw ops s.fmc (turn b e s).fmc ∧
      ∀ op ∈ ops, ∃ data len, handedOver b e s = some (data,len) ∧ Commits data len s.dfu op := by
  rw [turn_fmc]
  cases hh : handedOver b e s with
  | none => exact ⟨[],performs_nil b.hw hi,by simp⟩
  | some call =>
    obtain ⟨ops,hp,hc⟩ := data_commits b.hw call.1 call.2 s.dfu s.fmc hi
    exact ⟨ops,hp,fun op hop => ⟨call.1,call.2,rfl,hc op hop⟩⟩

/-- Whatever happened, the controller is idle between two turns. -/
theorem turn_idle_fmc (b : Board) (e : Event) (s : Stage2) (hi : Idle s.fmc) :
    Idle (turn b e s).fmc := by
  obtain ⟨ops,hp,-⟩ := turn_commits b e s hi
  exact hp.idle

theorem loop_idle_fmc (b : Board) (p : Poll) (s : Stage2) (hi : Idle s.fmc) :
    Idle (loopTurn b p s).fmc := by
  rw [loop_event]
  exact turn_idle_fmc b p.event s hi

end Swindle.StageTwo
