import Swindle.UsbHost

/-!
# The IN data stage

A response goes out in pieces of 64 bytes, each armed when the one before it has
been fetched. The offset of the next piece is the length of the response less
what remains of it, so the pieces are consecutive as long as the counter is.
-/

set_option autoImplicit false

namespace Swindle.InDataStage
open Swindle.WordMemory Swindle.DfuHandlers Swindle.UsbDriver Swindle.StageTwo Swindle.UsbHost
open Swindle.MachineRuns

def Undisturbed : Event → Prop
  | .setup _ => False
  | .busReset => False
  | _ => True

instance : ∀ e, Decidable (Undisturbed e)
  | .setup _ => isFalse id
  | .busReset => isFalse id
  | .inDone => isTrue trivial
  | .out _ _ => isTrue trivial
  | .quiet => isTrue trivial

/-- Piece `i` of a response, with the toggle it is armed with: DATA1 comes first. -/
def piece (whole : List Byte) (i : ℕ) : Packet :=
  let bytes := (whole.drop (64*i)).take 64
  ⟨bytes,BitVec.ofNat 16 bytes.length,decide (i % 2 = 0)⟩

def pieceCount (whole : List Byte) : ℕ := (whole.length+63)/64

def pieces (whole : List Byte) : List Packet := (List.range (pieceCount whole)).map (piece whole)

/-- The driver after `k` completions: the pieces up to number `k` have been
armed, read from inside the response, and after the last one the pipe is idle. -/
structure Fetched (whole : List Byte) (before : List Packet) (k : ℕ) (u : Usb) : Prop where
  armed : u.armed = before ++ (pieces whole).take (k+1)
  phase : u.ctrlPhase = if k < pieceCount whole then .ctrlDataIn else .ctrlIdle
  offset : k < pieceCount whole →
    (u.ctrlDataLen - u.ctrlDataRemaining).toNat = 64*k ∧ 64*k < whole.length

def watchFetched (e : Event) (s : Stage2) (k : ℕ) : ℕ :=
  if s.reset then k else
  match e with
  | .inDone => k+1
  | _ => k

def fetchLoop (b : Board) : Poll → Stage2 × ℕ → Stage2 × ℕ :=
  watched (loopTurn b) fun p s k => watchFetched p.event s k

/-- The branch of a SETUP packet that asks for data, for any response. -/
def answerIn (req : SetupPacket) (data : List Byte) (u : Usb) : Usb :=
  let l := BitVec.ofNat 16 data.length
  startDataIn data (if req.wLength < l then req.wLength else l)
    { u with epTxCtrl := usbfsEpResNak, epRxCtrl := usbfsEpResAck,
             ctrlReqType := req.bmRequestType, ctrlRequest := req.bRequest, ep0Tog := true }

theorem setup_answers (req : SetupPacket) (u : Usb) (d : Dfu) (hw : req.wLength ≠ 0)
    (hdir : req.bmRequestType &&& usbDirIn ≠ 0) : (onSetup req u d).1 =
      answerIn req (routeData req d) { u with usbDevAddr := routeAddr req u.usbDevAddr } := by
  simp only [onSetup, route_request, if_neg hw, if_pos hdir, answerIn]

/-! ## Pieces -/

section Pieces
variable (whole : List Byte)

theorem pieces_length : (pieces whole).length = pieceCount whole := by simp [pieces]

theorem count_le_iff (k : ℕ) : pieceCount whole ≤ k ↔ whole.length ≤ 64*k := by
  unfold pieceCount
  omega

theorem lt_count_iff (k : ℕ) : k < pieceCount whole ↔ 64*k < whole.length := by
  unfold pieceCount
  omega

theorem take_pieces (k : ℕ) (h : 64*k < whole.length) :
    (pieces whole).take (k+1) = (pieces whole).take k ++ [piece whole k] := by
  have hk : k < (pieces whole).length := by
    rw [pieces_length]
    exact (lt_count_iff whole k).mpr h
  rw [List.take_succ_eq_append_getElem hk]
  simp [pieces]

/-- The pieces are the response: nothing is lost, repeated or out of order. -/
theorem pieces_bytes : (pieces whole).flatMap Packet.bytes = whole := by
  have hprefix : ∀ n, ((List.range n).map (piece whole)).flatMap Packet.bytes =
      whole.take (64*n) := by
    intro n
    induction n with
    | zero => rfl
    | succ n ih =>
      rw [List.range_succ, List.map_append, List.flatMap_append, ih, Nat.mul_succ, List.take_add]
      simp [piece]
  rw [pieces, hprefix]
  exact List.take_of_length_le ((count_le_iff whole _).mp (le_refl _))

/-- Every piece but the last is full. -/
theorem piece_length (i : ℕ) (h : i < pieceCount whole) : (piece whole i).bytes.length =
    if i+1 < pieceCount whole then 64 else whole.length - 64*i := by
  have hi := (lt_count_iff whole i).mp h
  have hn := lt_count_iff whole (i+1)
  simp only [piece, List.length_take, List.length_drop]
  split_ifs <;> omega

end Pieces

theorem clamp_toNat (r : BitVec 16) : (clamp r).toNat = min 64 r.toNat := by
  have h64 : ep0MaxPacket = 64 := rfl
  simp only [clamp, h64]
  split_ifs <;> bv_omega

theorem send_piece (whole ptr : List Byte) (k : ℕ) (r : BitVec 16)
    (hp : ptr.take whole.length = whole) (hr : r.toNat = whole.length - 64*k) :
    (⟨(ptr.drop (64*k)).take (clamp (clamp r)).toNat,clamp (clamp r),decide (k % 2 = 0)⟩ : Packet) =
      piece whole k := by
  have hc : (clamp (clamp r)).toNat = min 64 (whole.length - 64*k) := by
    rw [clamp_toNat, clamp_toNat, hr]
    omega
  have hbytes : (whole.drop (64*k)).take 64 =
      (ptr.drop (64*k)).take (min 64 (whole.length - 64*k)) := by
    rw [← List.take_take, ← List.drop_take, hp]
  have hlen : ((whole.drop (64*k)).take 64).length = min 64 (whole.length - 64*k) := by
    rw [List.length_take, List.length_drop]
  simp only [piece, Packet.mk.injEq, hc, hbytes, true_and, and_true]
  rw [← hbytes, hlen, ← hc, BitVec.ofNat_toNat, BitVec.setWidth_eq]

/-! ## The stage -/

structure Sending (whole : List Byte) (before : List Packet) (k : ℕ) (u : Usb) : Prop where
  phase : u.ctrlPhase = .ctrlDataIn
  inside : 64*k < whole.length
  length : u.ctrlDataLen.toNat = whole.length
  remaining : u.ctrlDataRemaining.toNat = whole.length - 64*k
  readable : u.ctrlDataPtr.take whole.length = whole
  toggle : u.ep0Tog = !decide (k % 2 = 0)
  armed : u.armed = before ++ (pieces whole).take (k+1)

structure Sent (whole : List Byte) (before : List Packet) (k : ℕ) (u : Usb) : Prop where
  phase : u.ctrlPhase = .ctrlIdle
  outside : whole.length ≤ 64*k
  armed : u.armed = before ++ pieces whole

def Underway (whole : List Byte) (before : List Packet) (k : ℕ) (u : Usb) : Prop :=
  Sending whole before k u ∨ Sent whole before k u

section Stage
variable {whole : List Byte} {before : List Packet} {k : ℕ} {u : Usb}

theorem underway_fetched (h : Underway whole before k u) : Fetched whole before k u := by
  rcases h with h | h
  · have hk := (lt_count_iff whole k).mpr h.inside
    refine ⟨h.armed,by rw [if_pos hk, h.phase],fun _ => ⟨?_,h.inside⟩⟩
    have hlen := h.length
    have hrem := h.remaining
    have hin := h.inside
    bv_omega
  · have hk : ¬ k < pieceCount whole := by
      rw [lt_count_iff]
      exact Nat.not_lt.mpr h.outside
    have hall : (pieces whole).take (k+1) = pieces whole := by
      apply List.take_of_length_le
      rw [pieces_length]
      omega
    exact ⟨by rw [h.armed, hall],by rw [if_neg hk, h.phase],fun hc => absurd hc hk⟩

@[simp] theorem apply_phase (v : Usb) : (applyAddress v).ctrlPhase = v.ctrlPhase := by
  simp only [applyAddress]
  split_ifs <;> rfl

@[simp] theorem apply_armed (v : Usb) : (applyAddress v).armed = v.armed := by
  simp only [applyAddress]
  split_ifs <;> rfl

theorem in_sending (h : Sending whole before k u) : Underway whole before (k+1) (onIn u) := by
  have hin := h.inside
  have hrem := h.remaining
  have hlen := h.length
  have hpos : 0 < u.ctrlDataRemaining := by bv_omega
  have hnext : (u.ctrlDataRemaining - clamp u.ctrlDataRemaining).toNat =
      whole.length - 64*(k+1) := by
    have hc := clamp_toNat u.ctrlDataRemaining
    have hle : clamp u.ctrlDataRemaining ≤ u.ctrlDataRemaining := by bv_omega
    rw [BitVec.toNat_sub_of_le hle]
    omega
  by_cases hmore : 0 < u.ctrlDataRemaining - clamp u.ctrlDataRemaining
  · have hin' : 64*(k+1) < whole.length := by bv_omega
    have hoff : (u.ctrlDataLen - (u.ctrlDataRemaining - clamp u.ctrlDataRemaining)).toNat =
        64*(k+1) := by
      rw [BitVec.toNat_sub_of_le (by bv_omega)]
      omega
    have htog : (!decide (k % 2 = 0)) = decide ((k+1) % 2 = 0) := by
      rw [← decide_not, decide_eq_decide]
      omega
    have hpiece := send_piece whole u.ctrlDataPtr (k+1) _ h.readable hnext
    rw [onIn, if_pos ⟨h.phase,hpos⟩]
    simp only [if_pos hmore, ep0Send, hoff]
    refine Or.inl ⟨h.phase,hin',h.length,hnext,h.readable,?_,?_⟩
    · simp only [h.toggle, htog]
    · simp only [h.toggle, htog, hpiece, h.armed, List.append_assoc]
      rw [take_pieces whole (k+1) hin']
  · have hout : whole.length ≤ 64*(k+1) := by bv_omega
    have hall : (pieces whole).take (k+1) = pieces whole := by
      apply List.take_of_length_le
      rw [pieces_length]
      exact (count_le_iff whole _).mpr hout
    rw [onIn, if_pos ⟨h.phase,hpos⟩]
    simp only [if_neg hmore]
    refine Or.inr ⟨by rw [apply_phase],hout,?_⟩
    rw [apply_armed, ← hall]
    exact h.armed

theorem in_sent (h : Sent whole before k u) : Underway whole before (k+1) (onIn u) := by
  have hout := h.outside
  have hsame : onIn u = u := by simp [onIn, h.phase]
  rw [hsame]
  exact Or.inr ⟨h.phase,by omega,h.armed⟩

theorem underway_not_out (h : Underway whole before k u) : u.ctrlPhase ≠ .ctrlDataOut := by
  rcases h with h | h
  · rw [h.phase]
    decide
  · rw [h.phase]
    decide

end Stage

theorem loop_underway (b : Board) (whole : List Byte) (before : List Packet) (p : Poll)
    (q : Stage2 × ℕ) (he : Undisturbed p.event) (h : Underway whole before q.2 q.1.usb) :
    Underway whole before (fetchLoop b p q).2 (fetchLoop b p q).1.usb := by
  obtain ⟨s,k⟩ := q
  simp only [fetchLoop, watched, loop_event]
  cases hr : s.reset with
  | true =>
    simp only [turn_reset b _ s hr, watchFetched, hr, if_true]
    exact h
  | false =>
    simp only [turn_usb b _ s hr, watchFetched, hr,
      Bool.false_eq_true, if_false]
    cases hp : p.event with
    | setup req =>
      rw [hp] at he
      exact absurd he id
    | busReset =>
      rw [hp] at he
      exact absurd he id
    | quiet => exact h
    | out l buf =>
      simp only [outUsb, if_neg (underway_not_out h)]
      exact h
    | inDone =>
      rcases h with h | h
      · exact in_sending h
      · exact in_sent h

theorem answer_sending (req : SetupPacket) (data : List Byte) (u : Usb) (hw : req.wLength ≠ 0)
    (hd : data ≠ []) (h16 : data.length < 2^16) :
    Sending (data.take req.wLength.toNat) u.armed 0 (answerIn req data u) := by
  have hpos : 0 < data.length := List.length_pos_iff.mpr hd
  have hwlen : 0 < req.wLength.toNat := by bv_omega
  have hl : (if req.wLength < BitVec.ofNat 16 data.length then req.wLength
      else BitVec.ofNat 16 data.length).toNat = (data.take req.wLength.toNat).length := by
    have hdata : (BitVec.ofNat 16 data.length).toNat = data.length := by
      rw [BitVec.toNat_ofNat, Nat.mod_eq_of_lt h16]
    rw [List.length_take]
    split_ifs <;> bv_omega
  have hwhole : data.take (data.take req.wLength.toNat).length = data.take req.wLength.toNat := by
    rw [List.length_take, ← List.take_eq_take_min]
  have hin : 64*0 < (data.take req.wLength.toNat).length := by
    rw [List.length_take]
    omega
  have hpiece := send_piece (data.take req.wLength.toNat) data 0 _ hwhole
    (by rw [Nat.mul_zero, Nat.sub_zero]; exact hl)
  refine ⟨rfl,hin,hl,hl,hwhole,rfl,?_⟩
  rw [take_pieces _ 0 hin, ← hpiece]
  rfl

end Swindle.InDataStage
