import Swindle.UsbHost

/-!
# Recovery from abandoned transfers

Which transfer variables are live depends on the phase. Machines that agree on
the live ones stay in step, and a SETUP packet makes every other one dead.
-/

set_option autoImplicit false

namespace Swindle.TransferRecovery
open Swindle.WordMemory Swindle.FlashController Swindle.DfuHandlers Swindle.UsbDescriptors
open Swindle.UsbDriver
open Swindle.StageTwo Swindle.UsbHost Swindle.MachineRuns

/-- Agreement on everything but the state of the control transfer. -/
structure SameDevice (s t : Stage2) : Prop where
  dfu : s.dfu = t.dfu
  fmc : s.fmc = t.fmc
  reset : s.reset = t.reset
  rxBuffer : s.usb.dfuRxBuffer = t.usb.dfuRxBuffer
  usbDevAddr : s.usb.usbDevAddr = t.usb.usbDevAddr
  devAddr : s.usb.devAddr = t.usb.devAddr

/-- Agreement on the variables that the next event can read, with the same
packets armed since the drivers had armed `A` and `B`. -/
structure SamePipe (A B : List Packet) (u v : Usb) : Prop where
  rxBuffer : u.dfuRxBuffer = v.dfuRxBuffer
  usbDevAddr : u.usbDevAddr = v.usbDevAddr
  devAddr : u.devAddr = v.devAddr
  phase : u.ctrlPhase = v.ctrlPhase
  request : u.ctrlRequest = v.ctrlRequest
  tog : u.ep0Tog = v.ep0Tog
  dataIn : u.ctrlPhase = .ctrlDataIn → u.ctrlDataPtr = v.ctrlDataPtr ∧
    u.ctrlDataLen = v.ctrlDataLen ∧ u.ctrlDataRemaining = v.ctrlDataRemaining
  dataOut : u.ctrlPhase = .ctrlDataOut →
    u.ctrlDataRemaining = v.ctrlDataRemaining ∧ u.dfuRxOffset = v.dfuRxOffset
  armed : ∃ new, u.armed = A ++ new ∧ v.armed = B ++ new

section Pipes
variable {A B : List Packet} {u v : Usb}

theorem rearm_same (h : SamePipe A B u v) : SamePipe u.armed v.armed u v :=
  { h with armed := ⟨[],by simp⟩ }

theorem send_same (h : SamePipe A B u v) {data data' : List Byte} (hd : data = data')
    (len : BitVec 16) : SamePipe A B (ep0Send data len u) (ep0Send data' len v) where
  rxBuffer := h.rxBuffer
  usbDevAddr := h.usbDevAddr
  devAddr := h.devAddr
  phase := h.phase
  request := h.request
  tog := by simp only [ep0Send, h.tog]
  dataIn := h.dataIn
  dataOut := h.dataOut
  armed := by
    obtain ⟨new,hu,hv⟩ := h.armed
    refine ⟨new ++ [⟨data.take (clamp len).toNat,clamp len,u.ep0Tog⟩],?_,?_⟩
    · rw [← List.append_assoc, ← hu]
      rfl
    · rw [← List.append_assoc, ← hv, h.tog, hd]
      rfl

theorem idle_same (h : SamePipe A B u v) :
    SamePipe A B { u with ctrlPhase := .ctrlIdle } { v with ctrlPhase := .ctrlIdle } :=
  { h with
    phase := rfl
    dataIn := fun hp => absurd hp (by simp)
    dataOut := fun hp => absurd hp (by simp) }

theorem address_same (h : SamePipe A B u v) :
    SamePipe A B (applyAddress u) (applyAddress v) := by
  by_cases hq : u.ctrlRequest = usbReqSetAddress
  · rw [applyAddress, applyAddress, if_pos hq, if_pos (h.request ▸ hq)]
    exact { h with devAddr := h.usbDevAddr }
  · rw [applyAddress, applyAddress, if_neg hq, if_neg (h.request ▸ hq)]
    exact h

theorem counted_same (h : SamePipe A B u v) (r : BitVec 16) (hp : u.ctrlPhase = .ctrlDataIn) :
    SamePipe A B { u with ctrlDataRemaining := r } { v with ctrlDataRemaining := r } :=
  { h with
    dataIn := fun hi => ⟨(h.dataIn hi).1,(h.dataIn hi).2.1,rfl⟩
    dataOut := fun ho => by
      rw [show u.ctrlPhase = .ctrlDataOut from ho] at hp
      exact absurd hp (by decide) }

theorem setup_same (req : SetupPacket) (d : Dfu) (hb : u.dfuRxBuffer = v.dfuRxBuffer)
    (ha : u.usbDevAddr = v.usbDevAddr) (hr : u.devAddr = v.devAddr) :
    SamePipe u.armed v.armed (onSetup req u d).1 (onSetup req v d).1 := by
  simp only [onSetup, route_request, startDataIn, ha]
  split_ifs
  · refine send_same ?_ rfl _
    exact ⟨hb,rfl,hr,rfl,rfl,rfl,by simp,by simp,[],by simp⟩
  · refine send_same ?_ rfl _
    exact ⟨hb,rfl,hr,rfl,rfl,rfl,fun _ => ⟨rfl,rfl,rfl⟩,by simp,[],by simp⟩
  · refine send_same ?_ rfl _
    exact ⟨hb,rfl,hr,rfl,rfl,rfl,fun _ => ⟨rfl,rfl,rfl⟩,by simp,[],by simp⟩
  · refine send_same ?_ rfl _
    exact ⟨hb,rfl,hr,rfl,rfl,rfl,fun _ => ⟨rfl,rfl,rfl⟩,by simp,[],by simp⟩
  · exact ⟨hb,rfl,hr,rfl,rfl,rfl,by simp [ep0Recv],fun _ => ⟨rfl,rfl⟩,[],by simp [ep0Recv]⟩

theorem in_same (h : SamePipe A B u v) : SamePipe A B (onIn u) (onIn v) := by
  have hp := h.phase
  cases hc : u.ctrlPhase with
  | ctrlDataIn =>
    have hv : v.ctrlPhase = .ctrlDataIn := hp ▸ hc
    obtain ⟨hd,hl,hn⟩ := h.dataIn hc
    have hcount := counted_same h (u.ctrlDataRemaining - clamp u.ctrlDataRemaining) hc
    simp only [onIn, hc, hv, ← hn, true_and, reduceCtorEq, if_false]
    rw [hc, hv] at hcount
    split_ifs
    · exact send_same hcount (by rw [hd, hl]) _
    · exact address_same (idle_same hcount)
    · exact h
  | ctrlStatus =>
    have hv : v.ctrlPhase = .ctrlStatus := hp ▸ hc
    simp only [onIn, hc, hv, reduceCtorEq, false_and, if_false, if_true]
    exact address_same (idle_same h)
  | ctrlIdle =>
    have hv : v.ctrlPhase = .ctrlIdle := hp ▸ hc
    simp only [onIn, hc, hv, reduceCtorEq, false_and, if_false]
    exact h
  | ctrlDataOut =>
    have hv : v.ctrlPhase = .ctrlDataOut := hp ▸ hc
    rw [in_dataOut_same u hc, in_dataOut_same v hv]
    exact h

theorem take_same (h : SamePipe A B u v) (hc : u.ctrlPhase = .ctrlDataOut) (l : BitVec 16)
    (buf : ℕ → Byte) : SamePipe A B (takePacket l buf u) (takePacket l buf v) ∧
      (takePacket l buf u).dfuRxOffset = (takePacket l buf v).dfuRxOffset := by
  obtain ⟨hn,ho⟩ := h.dataOut hc
  have hi : u.ctrlPhase ≠ .ctrlDataIn := by simp [hc]
  simp only [takePacket, storePacket, ← hn, ← ho, ← h.rxBuffer]
  split_ifs
  · exact ⟨{ h with rxBuffer := rfl, dataIn := fun h' => absurd h' hi,
                    dataOut := fun _ => ⟨rfl,rfl⟩ },rfl⟩
  · exact ⟨{ h with dataIn := fun h' => absurd h' hi, dataOut := fun _ => ⟨rfl,ho⟩ },ho⟩

theorem out_same (h : SamePipe A B u v) (l : BitVec 16) (buf : ℕ → Byte) :
    SamePipe A B (outUsb l buf u) (outUsb l buf v) := by
  unfold outUsb
  rw [← h.phase]
  by_cases hc : u.ctrlPhase = .ctrlDataOut
  · have hn := (h.dataOut hc).1
    have ht := (take_same h hc l buf).1
    have he : DataStageEnds l u ↔ DataStageEnds l v := by simp only [DataStageEnds, hn]
    simp only [hc, if_true, ← he]
    split_ifs
    · exact send_same (idle_same ht) rfl _
    · exact { ht with }
  · simp only [hc, if_false]
    exact h

theorem bus_reset_same (h : SamePipe A B u v) : SamePipe A B (onBusReset u) (onBusReset v) :=
  { h with
    devAddr := rfl
    phase := rfl
    tog := rfl
    dataIn := fun hp => absurd hp (by simp [onBusReset])
    dataOut := fun hp => absurd hp (by simp [onBusReset]) }

end Pipes

/-- Machines that no event can tell apart. A machine that has been reset reads
no event any more. -/
structure InStep (s t : Stage2) : Prop where
  device : SameDevice s t
  pipe : s.reset = false → SamePipe s.usb.armed t.usb.armed s.usb t.usb

/-- What one step lets out: the packets it armed, and the device it leaves. -/
structure Observation where
  packets : List Packet
  dfu : Dfu
  devAddr : Byte
  flash : Memory

def observe (s s' : Stage2) : Observation :=
  ⟨s'.usb.armed.drop s.usb.armed.length,s'.dfu,s'.usb.devAddr,s'.fmc.flash⟩

section Steps
variable (b : Board) {s t : Stage2}

theorem call_same (h : SameDevice s t) {A B : List Packet} (hp : SamePipe A B s.usb t.usb)
    (l : BitVec 16) (buf : ℕ → Byte) (hc : s.usb.ctrlPhase = .ctrlDataOut) :
    (dataCall b l buf s).dfu = (dataCall b l buf t).dfu ∧
      (dataCall b l buf s).fmc = (dataCall b l buf t).fmc := by
  obtain ⟨hpipe,ho⟩ := take_same hp hc l buf
  simp only [dataCall, handleData, rxSource, ho, hpipe.rxBuffer, h.dfu, h.fmc]
  exact ⟨trivial,trivial⟩

theorem calls_same {A B : List Packet} {u v : Usb} (hp : SamePipe A B u v) (l : BitVec 16) :
    CallsData l u ↔ CallsData l v := by
  unfold CallsData DataStageEnds
  rw [← hp.phase, ← hp.request]
  constructor
  · rintro ⟨hc,he,hr⟩
    exact ⟨hc,(hp.dataOut hc).1 ▸ he,hr⟩
  · rintro ⟨hc,he,hr⟩
    exact ⟨hc,(hp.dataOut hc).1 ▸ he,hr⟩

theorem device_same (h : SameDevice s t) : SameDevice (afterPoll s) (afterPoll t) := by
  rw [afterPoll_eq, afterPoll_eq]
  exact { h with
    dfu := by simp only [h.dfu]
    reset := by simp only [h.dfu, h.reset] }

/-- A SETUP packet needs no agreement on the pipe, and establishes it. -/
theorem setup_event_same (req : SetupPacket) (h : SameDevice s t) :
    SameDevice (onEvent b (.setup req) s) (onEvent b (.setup req) t) ∧
      SamePipe s.usb.armed t.usb.armed (onEvent b (.setup req) s).usb
        (onEvent b (.setup req) t).usb := by
  have hp := setup_same req s.dfu h.rxBuffer h.usbDevAddr h.devAddr
  simp only [onEvent, ← h.dfu]
  exact ⟨⟨by simp,h.fmc,h.reset,hp.rxBuffer,hp.usbDevAddr,hp.devAddr⟩,hp⟩

theorem event_same (e : Event) (h : SameDevice s t)
    (hp : SamePipe s.usb.armed t.usb.armed s.usb t.usb) :
    SameDevice (onEvent b e s) (onEvent b e t) ∧
      SamePipe s.usb.armed t.usb.armed (onEvent b e s).usb (onEvent b e t).usb := by
  cases e with
  | setup req => exact setup_event_same b req h
  | inDone =>
    have hi := in_same hp
    exact ⟨{ h with rxBuffer := hi.rxBuffer, usbDevAddr := hi.usbDevAddr,
                    devAddr := hi.devAddr },hi⟩
  | busReset =>
    have hr := bus_reset_same hp
    exact ⟨{ h with devAddr := rfl },hr⟩
  | quiet => exact ⟨h,hp⟩
  | out l buf =>
    have ho := out_same hp l buf
    simp only [onEvent, out_eq, ← calls_same hp]
    split_ifs with hc
    · obtain ⟨hd,hf⟩ := call_same b h hp l buf hc.1
      exact ⟨⟨hd,hf,h.reset,ho.rxBuffer,ho.usbDevAddr,ho.devAddr⟩,ho⟩
    · exact ⟨⟨h.dfu,h.fmc,h.reset,ho.rxBuffer,ho.usbDevAddr,ho.devAddr⟩,ho⟩

theorem turn_shows (e : Event) (hs : s.reset = false) (ht : t.reset = false)
    (h : SameDevice (onEvent b e s) (onEvent b e t) ∧
      SamePipe s.usb.armed t.usb.armed (onEvent b e s).usb (onEvent b e t).usb) :
    InStep (turn b e s) (turn b e t) ∧ observe s (turn b e s) = observe t (turn b e t) := by
  obtain ⟨hd,hp⟩ := h
  obtain ⟨new,hsn,htn⟩ := hp.armed
  have ha := device_same hd
  rw [turn_live b e s hs, turn_live b e t ht]
  refine ⟨⟨ha,fun _ => ?_⟩,?_⟩
  · rw [afterPoll_usb, afterPoll_usb]
    exact rearm_same hp
  · simp only [observe, ha.dfu, ha.fmc, hd.devAddr, afterPoll_usb, hsn, htn, List.drop_left]

theorem turn_same (e : Event) (h : InStep s t) :
    InStep (turn b e s) (turn b e t) ∧ observe s (turn b e s) = observe t (turn b e t) := by
  cases hs : s.reset with
  | false => exact turn_shows b e hs (h.device.reset ▸ hs) (event_same b e h.device (h.pipe hs))
  | true =>
    rw [turn_reset b e s hs, turn_reset b e t (h.device.reset ▸ hs)]
    exact ⟨h,by simp [observe, h.device.dfu, h.device.devAddr, h.device.fmc]⟩

theorem setup_turn_same (req : SetupPacket) (h : SameDevice s t) :
    InStep (turn b (.setup req) s) (turn b (.setup req) t) ∧
      observe s (turn b (.setup req) s) = observe t (turn b (.setup req) t) := by
  cases hs : s.reset with
  | false => exact turn_shows b _ hs (h.reset ▸ hs) (setup_event_same b req h)
  | true =>
    rw [turn_reset b _ s hs, turn_reset b _ t (h.reset ▸ hs)]
    exact ⟨⟨h,fun hf => absurd hs (by simp [hf])⟩,
      by simp [observe, h.dfu, h.devAddr, h.fmc]⟩

end Steps

/-- A SETUP packet recovers the control pipe: from then on, machines that
differed in left-over transfer state let out the same at every step. -/
theorem setup_recovers_pipe (b : Board) (s t : Stage2) (h : SameDevice s t) (p : Poll)
    (req : SetupPacket) (hp : p.event = .setup req) (ps : List Poll) :
    trace (loopTurn b) observe (p::ps) s = trace (loopTurn b) observe (p::ps) t := by
  obtain ⟨hr,ho⟩ := setup_turn_same b req h
  rw [trace, trace]
  simp only [loop_event b p, hp, ho]
  rw [trace_related (loopTurn b) observe InStep _ ps _ _ hr]
  intro q s t hst
  rw [loop_event, loop_event]
  exact turn_same b q.event hst

/-- A status request after an aborted download, against one on a fresh pipe. -/
theorem setup_recovers_aborted :
    let s := perfectBoot fun _ => 0xFF
    let t := { s with usb := { s.usb with
      ctrlPhase := .ctrlDataOut, ctrlDataPtr := [1,2,3], ctrlDataLen := 3, ctrlDataRemaining := 4032,
      ctrlReqType := 0x21, ctrlRequest := dfuDnload, dfuRxOffset := 64, ep0Tog := false,
      epTxLen := 64, epTxCtrl := usbfsEpResAck } }
    let ps := [setupPoll ⟨0xA1,dfuGetstatus,0,0,6⟩,inPoll]
    trace (loopTurn perfectBoard) observe ps s = trace (loopTurn perfectBoard) observe ps t :=
  setup_recovers_pipe perfectBoard _ _ ⟨rfl,rfl,rfl,rfl,rfl,rfl⟩ _ _ (setup_poll _) _

end Swindle.TransferRecovery
