import Swindle.UsbHost

/-!
# Download transfers, from the SETUP packet to the data handler

A payload sent in packets is handed over once, with the last packet, at its
full length and with every byte in its place.
-/

set_option autoImplicit false

namespace Swindle.Transfers
open Swindle.WordMemory Swindle.FlashController Swindle.FlashOperations Swindle.DfuHandlers
open Swindle.FlashFrames Swindle.UsbDriver Swindle.StageTwo Swindle.UsbHost Swindle.MachineRuns

/-- A class DNLOAD request to the device, with a payload that fits the buffer. -/
structure Transfer where
  req : SetupPacket
  payload : List Byte
  download : IsDownload req
  toDevice : req.bmRequestType &&& usbDirIn = 0
  length : req.wLength.toNat = payload.length
  fits : payload.length ≤ 4096

/-- The packet arrives: what the endpoint buffer holds behind it is left open. -/
def IsOut (packet : List Byte) (e : Event) : Prop :=
  ∃ buf, e = .out (BitVec.ofNat 16 packet.length) buf ∧
    ∀ i < packet.length, buf i = bytesAt packet i

/-- The packets arrive in order, with quiet polls anywhere between them. -/
inductive Carries : List (List Byte) → List Event → Prop
  | nil : Carries [] []
  | quiet {packets events} : Carries packets events → Carries packets (.quiet :: events)
  | packet {packet packets e events} : IsOut packet e → Carries packets events →
      Carries (packet :: packets) (e :: events)

/-- The receive buffer after some bytes: what lies behind them is left over. -/
def overlay (received : List Byte) (old : ℕ → Byte) : ℕ → Byte := fun i =>
  if i < received.length then bytesAt received i else old i

structure Receiving (received : List Byte) (old : ℕ → Byte) (total : ℕ) (s : Stage2) : Prop where
  running : s.reset = false
  live : ¬ Resets s.dfu.state
  phase : s.usb.ctrlPhase = .ctrlDataOut
  request : s.usb.ctrlRequest = dfuDnload
  offset : s.usb.dfuRxOffset.toNat = received.length
  remaining : s.usb.ctrlDataRemaining.toNat + received.length = total
  buffer : s.usb.dfuRxBuffer = overlay received old

structure Ready (s : Stage2) : Prop where
  running : s.reset = false
  live : ¬ Resets s.dfu.state
  idle : Idle s.fmc

structure Resting (s : Stage2) : Prop where
  ready : Ready s
  phase : s.usb.ctrlPhase ≠ .ctrlDataOut

theorem receiving_settled {received : List Byte} {old : ℕ → Byte} {total : ℕ} {s : Stage2}
    (h : Receiving received old total s) : Settled s := fun _ => h.live

theorem ready_settled {s : Stage2} (h : Ready s) : Settled s := fun _ => h.live

theorem bytesAt_append (xs ys : List Byte) (i : ℕ) : bytesAt (xs++ys) i =
    if i < xs.length then bytesAt xs i else bytesAt ys (i - xs.length) := by
  simp only [bytesAt, List.getD_eq_getElem?_getD, List.getElem?_append]
  split_ifs <;> rfl

theorem overlay_nil (old : ℕ → Byte) : overlay [] old = old := rfl

theorem overlay_payload {payload : List Byte} {old : ℕ → Byte} {i : ℕ} (h : i < payload.length) :
    overlay payload old i = bytesAt payload i := if_pos h

theorem take_packet (u : Usb) (received packet : List Byte) (old buf : ℕ → Byte)
    (hfit : received.length + packet.length ≤ 4096)
    (ho : u.dfuRxOffset.toNat = received.length) (hb : u.dfuRxBuffer = overlay received old)
    (hbuf : ∀ i < packet.length, buf i = bytesAt packet i) :
    let v := takePacket (BitVec.ofNat 16 packet.length) buf u
    v.dfuRxOffset.toNat = (received++packet).length ∧
      v.dfuRxBuffer = overlay (received++packet) old := by
  have hp : (BitVec.ofNat 16 packet.length).toNat = packet.length := by
    rw [BitVec.toNat_ofNat]
    omega
  have hroom : u.dfuRxOffset.toNat + (BitVec.ofNat 16 packet.length).toNat ≤
      dfuTransferSize.toNat := by
    rw [hp, ho]
    exact hfit
  simp only [takePacket, storePacket, if_pos hroom]
  rw [List.length_append, BitVec.toNat_add, hp, ho]
  refine ⟨Nat.mod_eq_of_lt (by omega),funext fun i => ?_⟩
  rw [overlay, List.length_append, bytesAt_append, hb, overlay]
  by_cases hlt : i < received.length
  · rw [if_neg (by omega), if_pos hlt, if_pos (by omega), if_pos hlt]
  · by_cases hin : i < received.length + packet.length
    · rw [if_pos (by omega), if_pos hin, if_neg hlt, hbuf _ (by omega)]
    · rw [if_neg (by omega), if_neg hlt, if_neg hin]

theorem turn_out (b : Board) (l : BitVec 16) (buf : ℕ → Byte) (s : Stage2)
    (hr : s.reset = false) (hl : ¬ Resets s.dfu.state) (hc : ¬ CallsData l s.usb) :
    turn b (.out l buf) s = { s with usb := outUsb l buf s.usb } := by
  have he : onEvent b (.out l buf) s = { s with usb := outUsb l buf s.usb } := by
    rw [onEvent, out_eq, if_neg hc]
  rw [turn_event b _ s hr (by rwa [he]), he]

/-- A packet that does not end its data stage is stored, and nothing else happens. -/
theorem turn_more (b : Board) (l : BitVec 16) (buf : ℕ → Byte) (s : Stage2)
    (hr : s.reset = false) (hl : ¬ Resets s.dfu.state) (hp : s.usb.ctrlPhase = .ctrlDataOut)
    (hends : ¬ DataStageEnds l s.usb) :
    turn b (.out l buf) s = { s with usb := ep0Recv (takePacket l buf s.usb) } := by
  rw [turn_out b l buf s hr hl (fun hc => hends hc.2.1), out_more buf hp hends]

theorem packet_stored (b : Board) (received packet : List Byte) (old : ℕ → Byte) (total : ℕ)
    (e : Event) (s : Stage2) (h : Receiving received old total s) (he : IsOut packet e)
    (hp : packet.length = 64) (hmore : received.length + 64 < total) (hfit : total ≤ 4096) :
    Receiving (received++packet) old total (turn b e s) ∧
      (turn b e s).dfu = s.dfu ∧ (turn b e s).fmc = s.fmc := by
  obtain ⟨buf,rfl,hbuf⟩ := he
  have hrem := h.remaining
  have hl : BitVec.ofNat 16 packet.length = 64 := by
    rw [hp]
    rfl
  have hends : ¬ DataStageEnds 64 s.usb := full_packet_continues (by omega)
  obtain ⟨hoff,hbytes⟩ :=
    take_packet s.usb received packet old buf (by omega) h.offset h.buffer hbuf
  rw [hl] at hoff hbytes ⊢
  rw [turn_more b 64 buf s h.running h.live h.phase hends]
  have hcount : (takePacket 64 buf s.usb).ctrlDataRemaining.toNat + (received++packet).length =
      total := by
    rw [take_remaining, List.length_append, hp]
    bv_omega
  generalize hv : takePacket 64 buf s.usb = v at *
  have hphase : v.ctrlPhase = .ctrlDataOut := by
    rw [← hv, take_phase, h.phase]
  have hrequest : v.ctrlRequest = dfuDnload := by
    rw [← hv, take_request, h.request]
  exact ⟨⟨h.running,h.live,hphase,hrequest,hoff,hcount,hbytes⟩,rfl,rfl⟩

def received (b : Board) (payload : List Byte) (old : ℕ → Byte) : Source :=
  ⟨b.dfuRxBuffer,overlay payload old⟩

theorem packet_completes (b : Board) (stored packet : List Byte) (old : ℕ → Byte)
    (total : BitVec 16) (e : Event) (s : Stage2) (h : Receiving stored old total.toNat s)
    (hi : Idle s.fmc) (he : IsOut packet e)
    (hlast : stored.length + packet.length = total.toNat) (hfit : total.toNat ≤ 4096) :
    let r := dfuHandleData b.hw (received b (stored++packet) old) total s.dfu s.fmc
    (turn b e s).dfu = r.1 ∧ (turn b e s).fmc = r.2 ∧ Resting (turn b e s) ∧
      (turn b e s).usb.dfuRxBuffer = overlay (stored++packet) old := by
  obtain ⟨buf,rfl,hbuf⟩ := he
  have hrem := h.remaining
  have hl : (BitVec.ofNat 16 packet.length).toNat = packet.length := by
    rw [BitVec.toNat_ofNat]
    omega
  have hc : CallsData (BitVec.ofNat 16 packet.length) s.usb :=
    ⟨h.phase,Or.inl (by bv_omega),h.request⟩
  obtain ⟨hoff,hbytes⟩ := take_packet s.usb stored packet old buf (by omega) h.offset h.buffer hbuf
  have htot : (takePacket (BitVec.ofNat 16 packet.length) buf s.usb).dfuRxOffset = total := by
    rw [← BitVec.toNat_inj, hoff, List.length_append, hlast]
  have hh : handedOver b (.out (BitVec.ofNat 16 packet.length) buf) s =
      some (received b (stored++packet) old,total) := by
    simp only [handedOver, if_pos (And.intro h.running hc), htot, rxSource, hbytes, received]
  obtain ⟨hd,hf⟩ := turn_handed b _ s (receiving_settled h) _ _ hh
  have hsame : turn b (.out (BitVec.ofNat 16 packet.length) buf) s =
      onEvent b (.out (BitVec.ofNat 16 packet.length) buf) s := by
    apply turn_event b _ s h.running
    rw [event_dfu]
    simp only [if_pos hc]
    exact data_live b.hw _ _ s.dfu s.fmc h.live
  have hu : (turn b (.out (BitVec.ofNat 16 packet.length) buf) s).usb =
      outUsb (BitVec.ofNat 16 packet.length) buf s.usb := by
    rw [hsame, event_usb]
  refine ⟨hd,hf,⟨⟨?_,?_,?_⟩,?_⟩,?_⟩
  · rw [hsame, event_reset, h.running]
  · rw [hd]
    exact data_live b.hw _ _ s.dfu s.fmc h.live
  · exact turn_idle_fmc b _ s hi
  · rw [hu, calls_idle hc]
    decide
  · rw [hu, outUsb, if_pos hc.1, if_pos hc.2.1]
    exact hbytes

/-! ## Whole transfers -/

theorem run_quiet (b : Board) (events : List Event) (h : Carries [] events) (s : Stage2)
    (hs : Settled s) : run (turn b) events s = s := by
  generalize hp : ([] : List (List Byte)) = ps at h
  induction h with
  | nil => rfl
  | quiet h ih =>
    rw [run, turn_quiet b s hs]
    exact ih hp
  | packet hx h ih => cases hp

/-- The packets still to come are the chunks of what is still to come. -/
theorem chunks_run (b : Board) (old : ℕ → Byte) (total : BitVec 16) (hfit : total.toNat ≤ 4096)
    (ps : List (List Byte)) (events : List Event) (hc : Carries ps events) :
    ∀ (n : ℕ) (stored todo : List Byte) (s : Stage2), ps = chunks n todo → 0 < n →
      n = (todo.length+63)/64 → stored.length + todo.length = total.toNat →
      Receiving stored old total.toNat s → Idle s.fmc →
      let r := dfuHandleData b.hw (received b (stored++todo) old) total s.dfu s.fmc
      (run (turn b) events s).dfu = r.1 ∧ (run (turn b) events s).fmc = r.2 ∧
        Resting (run (turn b) events s) ∧
        (run (turn b) events s).usb.dfuRxBuffer = overlay (stored++todo) old := by
  induction hc with
  | nil =>
    intro n stored todo s hp hn
    cases n with
    | zero => omega
    | succ n => cases hp
  | quiet hc ih =>
    intro n stored todo s hp hn hl ht hr hi
    rw [run, turn_quiet b s (receiving_settled hr)]
    exact ih n stored todo s hp hn hl ht hr hi
  | @packet p ps e events hx hc ih =>
    intro n stored todo s hp hn hl ht hr hi
    cases n with
    | zero => omega
    | succ n =>
      obtain ⟨rfl,rfl⟩ := List.cons.inj hp
      by_cases hlast : n = 0
      · subst hlast
        have hall : todo.take 64 = todo := List.take_of_length_le (by omega)
        rw [hall] at hx
        have hdone := packet_completes b stored todo old total e s hr hi hx ht hfit
        rw [run, run_quiet b events hc _ (ready_settled hdone.2.2.1.ready)]
        exact hdone
      · have hlen : (todo.take 64).length = 64 := by
          rw [List.length_take]
          omega
        have hdrop : (todo.drop 64).length = todo.length - 64 := List.length_drop
        obtain ⟨hr',hd',hf'⟩ :=
          packet_stored b stored _ old total.toNat e s hr hx hlen (by omega) hfit
        have hrest := ih n (stored ++ todo.take 64) (todo.drop 64) _ rfl (by omega) (by omega)
          (by rw [List.length_append]; omega) hr' (by rwa [hf'])
        rw [hd', hf', List.append_assoc, List.take_append_drop] at hrest
        exact hrest

theorem download_turn (b : Board) (req : SetupPacket) (hd : IsDownload req) (s : Stage2)
    (hr : s.reset = false) : turn b (.setup req) s = onEvent b (.setup req) s ∧
      ¬ Resets (onEvent b (.setup req) s).dfu.state := by
  have hlive : ¬ Resets (onEvent b (.setup req) s).dfu.state := by
    rw [event_dfu]
    simp only [download_dfu req s.dfu hd]
    exact (by decide : ¬ Resets .dfuDnloadSync)
  exact ⟨turn_event b _ s hr hlive,hlive⟩

theorem setup_receives (b : Board) (t : Transfer) (s : Stage2) (hs : Ready s) :
    Receiving [] s.usb.dfuRxBuffer t.payload.length (turn b (.setup t.req) s) ∧
      (turn b (.setup t.req) s).dfu = routeDfu t.req s.dfu ∧
      (turn b (.setup t.req) s).fmc = s.fmc := by
  have hd : (onEvent b (.setup t.req) s).dfu = routeDfu t.req s.dfu := event_dfu b _ s
  obtain ⟨hsame,hlive⟩ := download_turn b t.req t.download s hs.running
  have hphase := (setup_dataOut t.req s.usb s.dfu).mpr ⟨t.download.2.2,t.toDevice⟩
  obtain ⟨hrem,hoff⟩ := setup_dataOut_counters t.req s.usb s.dfu hphase
  have hu : (onEvent b (.setup t.req) s).usb = (onSetup t.req s.usb s.dfu).1 := event_usb b _ s
  have hr : (onEvent b (.setup t.req) s).reset = false := (event_reset b _ s).trans hs.running
  rw [hsame]
  refine ⟨⟨hr,hlive,hu ▸ hphase,?_,?_,?_,?_⟩,hd,event_fmc b _ s⟩
  · rw [hu, setup_request]
    exact t.download.2.1
  · rw [hu, hoff]
    rfl
  · rw [hu, hrem, t.length, List.length_nil, add_zero]
  · rw [hu, setup_rxBuffer, overlay_nil]

/-- A transfer hands its payload to the data handler and leaves it in the receive
buffer, and nothing else happens. -/
theorem transfer_run (b : Board) (t : Transfer) (data : List Event)
    (hc : Carries (packets t.payload) data) (s : Stage2) (hs : Ready s) :
    let r := dfuHandleData b.hw (received b t.payload s.usb.dfuRxBuffer) t.req.wLength
      (routeDfu t.req s.dfu) s.fmc
    (run (turn b) (.setup t.req :: data) s).dfu = r.1 ∧
      (run (turn b) (.setup t.req :: data) s).fmc = r.2 ∧
      Resting (run (turn b) (.setup t.req :: data) s) ∧
      (run (turn b) (.setup t.req :: data) s).usb.dfuRxBuffer =
        overlay t.payload s.usb.dfuRxBuffer := by
  obtain ⟨hr,hd,hf⟩ := setup_receives b t s hs
  have hfit := t.fits
  have hpos : 0 < t.payload.length := by
    have := t.download.2.2
    rw [← t.length]
    bv_omega
  have hlen := t.length
  rw [← hlen] at hr
  have hrun := chunks_run b s.usb.dfuRxBuffer t.req.wLength (by omega) _ data hc _ [] t.payload _
    rfl (by omega) rfl (by rw [List.length_nil]; omega) hr (by rw [hf]; exact hs.idle)
  rw [hd, hf, List.nil_append] at hrun
  exact hrun

end Swindle.Transfers
