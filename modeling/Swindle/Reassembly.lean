import Swindle.Transfers

/-!
# The receive buffer

Packets of an open data stage are full, because a short one ends the stage. So
the offset steps by 64 up to the size of the buffer, and whatever is dropped is
dropped from there on.
-/

set_option autoImplicit false

namespace Swindle.Reassembly
open Swindle.WordMemory Swindle.FlashController Swindle.DfuHandlers Swindle.UsbDriver
open Swindle.StageTwo Swindle.UsbHost Swindle.Transfers Swindle.MachineRuns

/-- The hardware never reports more than the size of the endpoint buffer. -/
def AtMost64 : Event → Prop
  | .out rxLen _ => rxLen ≤ 64
  | _ => True

instance : ∀ e, Decidable (AtMost64 e)
  | .out rxLen _ => inferInstanceAs (Decidable (rxLen ≤ 64))
  | .setup _ => isTrue trivial
  | .inDone => isTrue trivial
  | .busReset => isTrue trivial
  | .quiet => isTrue trivial

def packetBytes (rxLen : BitVec 16) (buf : ℕ → Byte) : List Byte :=
  (List.range rxLen.toNat).map buf

/-- The bytes that the data stage has brought since the last SETUP packet. -/
def watchBytes (e : Event) (s : Stage2) (w : List Byte) : List Byte :=
  if s.reset then w else
  match e with
  | .setup _ => []
  | .out rxLen buf => if s.usb.ctrlPhase = .ctrlDataOut then w ++ packetBytes rxLen buf else w
  | _ => w

def receivedLoop (b : Board) : Poll → Stage2 × List Byte → Stage2 × List Byte :=
  watched (loopTurn b) fun p => watchBytes p.event

/-- The buffer holds what was received, up to its size. -/
structure Reassembled (offset : BitVec 16) (buffer : ℕ → Byte) (w : List Byte) : Prop where
  length : offset.toNat = min 4096 w.length
  bytes : ∀ i < offset.toNat, buffer i = bytesAt w i

/-- What one poll does with the receive buffer: nothing is copied behind its end,
and a payload handed over is what was received with this packet. -/
structure BufferSound (b : Board) (e : Event) (s : Stage2) (w : List Byte) : Prop where
  inside : ∀ i, 4096 ≤ i → (turn b e s).usb.dfuRxBuffer i = s.usb.dfuRxBuffer i
  handed : ∀ data len, handedOver b e s = some (data,len) →
    len.toNat ≤ 4096 ∧ Reassembled len data.byte (watchBytes e s w)

/-- Between two polls an open data stage has brought full packets only. -/
def Stocked (s : Stage2) (w : List Byte) : Prop := s.usb.ctrlPhase = .ctrlDataOut →
  64 ∣ w.length ∧ Reassembled s.usb.dfuRxOffset s.usb.dfuRxBuffer w

theorem packetBytes_length (rxLen : BitVec 16) (buf : ℕ → Byte) :
    (packetBytes rxLen buf).length = rxLen.toNat := by
  rw [packetBytes, List.length_map, List.length_range]

theorem packetBytes_at (rxLen : BitVec 16) (buf : ℕ → Byte) (i : ℕ) (hi : i < rxLen.toNat) :
    bytesAt (packetBytes rxLen buf) i = buf i := by
  simp only [bytesAt, packetBytes, List.getD_eq_getElem?_getD, List.getElem?_map,
    List.getElem?_range hi]
  rfl

/-- A packet is stored whole, or dropped whole by a buffer that is full. -/
theorem take_reassembled (u : Usb) (w : List Byte) (rxLen : BitVec 16) (buf : ℕ → Byte)
    (hl : rxLen ≤ 64) (hfull : 64 ∣ w.length)
    (h : Reassembled u.dfuRxOffset u.dfuRxBuffer w) :
    Reassembled (takePacket rxLen buf u).dfuRxOffset (takePacket rxLen buf u).dfuRxBuffer
      (w ++ packetBytes rxLen buf) := by
  have ho := h.length
  have hl' : rxLen.toNat ≤ 64 := hl
  have hlen : (w ++ packetBytes rxLen buf).length = w.length + rxLen.toNat := by
    rw [List.length_append, packetBytes_length]
  have hsize : dfuTransferSize.toNat = 4096 := rfl
  by_cases hfit : u.dfuRxOffset.toNat + rxLen.toNat ≤ dfuTransferSize.toNat
  · have hoff : (u.dfuRxOffset + rxLen).toNat = u.dfuRxOffset.toNat + rxLen.toNat := by bv_omega
    simp only [takePacket, storePacket, if_pos hfit]
    refine ⟨?_,fun i hi => ?_⟩
    · rw [hoff, hlen]
      omega
    · rw [hoff] at hi
      rw [bytesAt_append]
      by_cases hlt : i < u.dfuRxOffset.toNat
      · rw [if_neg (by omega), if_pos (by omega)]
        exact h.bytes i hlt
      · rw [if_pos (by omega), if_neg (by omega), packetBytes_at _ _ _ (by omega)]
        congr 1
        omega
  · simp only [takePacket, storePacket, if_neg hfit]
    refine ⟨by rw [hlen]; omega,fun i hi => ?_⟩
    rw [bytesAt_append, if_pos (by omega)]
    exact h.bytes i hi

theorem take_inside (u : Usb) (rxLen : BitVec 16) (buf : ℕ → Byte) (i : ℕ) (hi : 4096 ≤ i) :
    (takePacket rxLen buf u).dfuRxBuffer i = u.dfuRxBuffer i := by
  have hsize : dfuTransferSize.toNat = 4096 := rfl
  simp only [takePacket, storePacket]
  split_ifs
  · exact if_neg (by omega)
  · rfl

theorem out_rxBuffer (u : Usb) (rxLen : BitVec 16) (buf : ℕ → Byte) (i : ℕ) (hi : 4096 ≤ i) :
    (outUsb rxLen buf u).dfuRxBuffer i = u.dfuRxBuffer i := by
  by_cases hp : u.ctrlPhase = .ctrlDataOut
  · by_cases he : DataStageEnds rxLen u
    · rw [outUsb, if_pos hp, if_pos he]
      exact take_inside u rxLen buf i hi
    · rw [outUsb, if_pos hp, if_neg he]
      exact take_inside u rxLen buf i hi
  · rw [outUsb, if_neg hp]

theorem turn_inside (b : Board) (e : Event) (s : Stage2) (i : ℕ) (hi : 4096 ≤ i) :
    (turn b e s).usb.dfuRxBuffer i = s.usb.dfuRxBuffer i := by
  cases hr : s.reset with
  | true => rw [turn_reset b e s hr]
  | false =>
    rw [turn_usb b e s hr]
    cases e with
    | setup req => exact congrFun (setup_rxBuffer req s.usb s.dfu) i
    | inDone => exact congrFun (in_rxBuffer s.usb) i
    | out l buf => exact out_rxBuffer s.usb l buf i hi
    | busReset => rfl
    | quiet => rfl

theorem open_full {rxLen : BitVec 16} {buf : ℕ → Byte} {u : Usb} (hl : rxLen ≤ 64)
    (h : (outUsb rxLen buf u).ctrlPhase = .ctrlDataOut) :
    rxLen = 64 ∧ outUsb rxLen buf u = ep0Recv (takePacket rxLen buf u) := by
  have hp := out_dataOut h
  have hends : ¬ DataStageEnds rxLen u := by
    intro hc
    rw [outUsb, if_pos hp, if_pos hc] at h
    cases h
  have hlt : ¬ rxLen < ep0MaxPacket := fun hc => hends (Or.inr hc)
  exact ⟨BitVec.le_antisymm hl (BitVec.not_lt.mp hlt),out_more buf hp hends⟩

theorem turn_stocked (b : Board) (e : Event) (s : Stage2) (w : List Byte) (he : AtMost64 e)
    (h : Stocked s w) : Stocked (turn b e s) (watchBytes e s w) := by
  cases hr : s.reset with
  | true =>
    simp only [turn_reset b e s hr, watchBytes, hr, if_true]
    exact h
  | false =>
    have hu := turn_usb b e s hr
    simp only [Stocked, watchBytes, hr, Bool.false_eq_true, if_false, hu]
    cases e with
    | setup req =>
      intro hp
      obtain ⟨-,ho⟩ := setup_dataOut_counters req s.usb s.dfu hp
      exact ⟨⟨0,rfl⟩,by rw [ho]; exact ⟨rfl,by simp⟩⟩
    | inDone =>
      intro hp
      have hq := (in_dataOut s.usb).mp hp
      simp only [in_dataOut_same s.usb hq]
      exact h hq
    | out l buf =>
      intro hp
      have hq := out_dataOut hp
      obtain ⟨hfull,hst⟩ := h hq
      obtain ⟨h64,heq⟩ := open_full he hp
      simp only [if_pos hq, heq]
      refine ⟨?_,take_reassembled s.usb w l buf he hfull hst⟩
      rw [List.length_append, packetBytes_length, h64]
      exact Nat.dvd_add hfull ⟨1,rfl⟩
    | busReset => exact fun hp => absurd hp (by simp [onBusReset])
    | quiet => exact h

theorem turn_buffer_sound (b : Board) (e : Event) (s : Stage2) (w : List Byte) (he : AtMost64 e)
    (h : Stocked s w) : BufferSound b e s w := by
  refine ⟨fun i hi => turn_inside b e s i hi,fun data len hh => ?_⟩
  cases e with
  | out l buf =>
    simp only [handedOver] at hh
    split_ifs at hh with hc
    obtain ⟨hfull,hst⟩ := h hc.2.1
    have hsound := take_reassembled s.usb w l buf he hfull hst
    simp only [Option.some.injEq, Prod.mk.injEq] at hh
    obtain ⟨rfl,rfl⟩ := hh
    simp only [watchBytes, hc.1, Bool.false_eq_true, if_false, if_pos hc.2.1]
    exact ⟨by rw [hsound.length]; omega,hsound⟩
  | setup req => cases hh
  | inDone => cases hh
  | busReset => cases hh
  | quiet => cases hh

/-- In every open data stage, and at every call of the data handler, the buffer
holds the first 4096 bytes of what the packets since the last SETUP have brought. -/
theorem buffer_reassembles (b : Board) (f : Fmc) (ps : List Poll)
    (h : ∀ p ∈ ps, AtMost64 p.event) :
    Throughout (receivedLoop b) (fun q => q.1.usb.ctrlPhase = .ctrlDataOut →
      q.1.usb.dfuRxOffset.toNat ≤ 4096 ∧
        Reassembled q.1.usb.dfuRxOffset q.1.usb.dfuRxBuffer q.2) ps (boot f,[]) ∧
    Along (receivedLoop b) (fun p q => BufferSound b p.event q.1 q.2) ps (boot f,[]) := by
  have hall : Along (receivedLoop b) (fun p _ => AtMost64 p.event) ps (boot f,[]) :=
    along_inputs _ _ ps _ h
  have hkeep : ∀ (p : Poll) (q : Stage2 × List Byte), AtMost64 p.event → Stocked q.1 q.2 →
      Stocked (receivedLoop b p q).1 (receivedLoop b p q).2 := by
    intro p q hp hq
    simp only [receivedLoop, watched, loop_event]
    exact turn_stocked b p.event q.1 q.2 hp hq
  have hboot : Stocked (boot f) [] := fun hp => absurd hp (by simp [boot, usbInit])
  refine ⟨?_,along_invariant _ _ (fun q => Stocked q.1 q.2) _ hkeep
    (fun p q hp hq => turn_buffer_sound b p.event q.1 q.2 hp hq) ps _ hall hboot⟩
  apply throughout_mono _ (fun q => Stocked q.1 q.2) _ _ ps _
    (throughout_invariant _ _ _ hkeep ps _ hall hboot)
  intro q hq hp
  obtain ⟨-,hst⟩ := hq hp
  exact ⟨by rw [hst.length]; omega,hst⟩

/-- A transfer cut short by another one with more than the buffer holds. -/
theorem aborted_then_long_reassembles :
    let ps := setupPoll ⟨0x21,dfuDnload,2,0,4096⟩ :: outPoll (List.replicate 64 1) ::
      setupPoll ⟨0x21,dfuDnload,3,0,9000⟩ :: List.replicate 70 (outPoll (List.replicate 64 2))
    Throughout (receivedLoop perfectBoard) (fun q => q.1.usb.ctrlPhase = .ctrlDataOut →
      q.1.usb.dfuRxOffset.toNat ≤ 4096 ∧
        Reassembled q.1.usb.dfuRxOffset q.1.usb.dfuRxBuffer q.2) ps
        (perfectBoot fun _ => 0xFF,[]) ∧
    Along (receivedLoop perfectBoard) (fun p q => BufferSound perfectBoard p.event q.1 q.2) ps
      (perfectBoot fun _ => 0xFF,[]) :=
  buffer_reassembles perfectBoard _ _ (by decide)

end Swindle.Reassembly
