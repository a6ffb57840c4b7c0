import Swindle.Reassembly
import Swindle.Download

/-!
# The length of an OUT data stage

The announced length is counted down by whatever arrives, and a short packet
ends the stage whatever is left. The count comes out right only for a host that
sends exactly what it has announced, and announces no more than the buffer holds.
-/

set_option autoImplicit false

namespace Swindle.DataStageLength
open Swindle.WordMemory Swindle.FlashController Swindle.FlashOperations Swindle.DfuHandlers
open Swindle.UsbDriver Swindle.StageTwo Swindle.UsbHost Swindle.Transfers Swindle.Download
open Swindle.Reassembly Swindle.MachineRuns

structure Announces (req : SetupPacket) : Prop where
  download : IsDownload req
  toDevice : req.bmRequestType &&& usbDirIn = 0

def Continues : Event → Prop
  | .setup _ => False
  | .busReset => False
  | e => AtMost64 e

instance : ∀ e, Decidable (Continues e)
  | .setup _ => isFalse id
  | .busReset => isFalse id
  | .out rxLen _ => inferInstanceAs (Decidable (rxLen ≤ 64))
  | .inDone => isTrue trivial
  | .quiet => isTrue trivial

/-- The count of a data stage that started with these calls behind it: while it
is open some bytes are missing and the counter says how many, and it ends with
one call, of the announced length, when none is missing. -/
def Accounted (req : SetupPacket) (before : List DataCall) (s : Stage2) (w : List Byte) : Prop :=
  s.usb.ctrlPhase = .ctrlDataOut ∧ w.length < req.wLength.toNat ∧
    s.usb.ctrlDataRemaining.toNat = req.wLength.toNat - w.length ∧ s.handled = before ∨
  s.usb.ctrlPhase ≠ .ctrlDataOut ∧ w.length = req.wLength.toNat ∧
    s.handled = before ++ [⟨req.wValue.setWidth 32,req.wLength⟩]

instance (req : SetupPacket) (before : List DataCall) (s : Stage2) (w : List Byte) :
    Decidable (Accounted req before s w) :=
  inferInstanceAs (Decidable (_ ∧ _ ∧ _ ∧ _ ∨ _ ∧ _ ∧ _))

/-- The packets bring the bytes still missing: full ones, and a last one that
brings exactly the rest of a payload that fits the buffer. -/
def Delivers (total : ℕ) : ℕ → List Event → Prop
  | _, [] => True
  | missing, .out rxLen _ :: es => rxLen.toNat = missing ∧ total ≤ 4096 ∨
      rxLen = 64 ∧ 64 < missing ∧ Delivers total (missing - 64) es
  | missing, _ :: es => Delivers total missing es

def decidableDelivers (total : ℕ) : ∀ missing es, Decidable (Delivers total missing es)
  | _, [] => isTrue trivial
  | missing, .out rxLen _ :: es =>
    have := decidableDelivers total (missing - 64) es
    inferInstanceAs (Decidable (rxLen.toNat = missing ∧ total ≤ 4096 ∨
      rxLen = 64 ∧ 64 < missing ∧ Delivers total (missing - 64) es))
  | missing, .setup _ :: es => decidableDelivers total missing es
  | missing, .inDone :: es => decidableDelivers total missing es
  | missing, .busReset :: es => decidableDelivers total missing es
  | missing, .quiet :: es => decidableDelivers total missing es

instance (total missing : ℕ) (es : List Event) : Decidable (Delivers total missing es) :=
  decidableDelivers total missing es

structure Open (req : SetupPacket) (before : List DataCall) (s : Stage2) (w : List Byte) :
    Prop where
  running : s.reset = false
  live : ¬ Resets s.dfu.state
  phase : s.usb.ctrlPhase = .ctrlDataOut
  request : s.usb.ctrlRequest = dfuDnload
  blockNum : s.dfu.dfuBlockNum = req.wValue.setWidth 32
  missing : w.length < req.wLength.toNat
  remaining : s.usb.ctrlDataRemaining.toNat = req.wLength.toNat - w.length
  full : 64 ∣ w.length
  stocked : Reassembled s.usb.dfuRxOffset s.usb.dfuRxBuffer w
  handled : s.handled = before

theorem open_accounted {req : SetupPacket} {before : List DataCall} {s : Stage2} {w : List Byte}
    (h : Open req before s w) : Accounted req before s w :=
  Or.inl ⟨h.phase,h.missing,h.remaining,h.handled⟩

section Stage
variable (b : Board) (req : SetupPacket) (before : List DataCall)

theorem ended_step (e : Event) (he : Continues e) (s : Stage2) (w : List Byte)
    (hr : s.reset = false) (hl : ¬ Resets s.dfu.state) (hp : s.usb.ctrlPhase ≠ .ctrlDataOut) :
    (turn b e s).reset = false ∧ ¬ Resets (turn b e s).dfu.state ∧
      (turn b e s).usb.ctrlPhase ≠ .ctrlDataOut ∧ (turn b e s).handled = s.handled ∧
      watchBytes e s w = w := by
  cases e with
  | setup req => exact absurd he id
  | busReset => exact absurd he id
  | quiet =>
    rw [turn_quiet b s (fun _ => hl)]
    exact ⟨hr,hl,hp,rfl,by simp [watchBytes]⟩
  | inDone =>
    rw [turn_event b .inDone s hr hl]
    exact ⟨hr,hl,fun h => hp ((in_dataOut s.usb).mp h),rfl,by simp [watchBytes]⟩
  | out l buf =>
    rw [turn_out b l buf s hr hl (fun h => hp h.1)]
    exact ⟨hr,hl,fun h => hp (out_dataOut h),rfl,by simp [watchBytes, hp]⟩

theorem ended_throughout (ps : List Poll) (hps : ∀ p ∈ ps, Continues p.event) (s : Stage2)
    (w : List Byte) (hr : s.reset = false) (hl : ¬ Resets s.dfu.state)
    (hp : s.usb.ctrlPhase ≠ .ctrlDataOut) (h : Accounted req before s w) :
    Throughout (receivedLoop b) (fun q => Accounted req before q.1 q.2) ps (s,w) := by
  induction ps generalizing s w with
  | nil => exact h
  | cons p ps ih =>
    obtain ⟨hr',hl',hp',hh,hw⟩ := ended_step b p.event (hps p (by simp)) s w hr hl hp
    have h' : Accounted req before (turn b p.event s) (watchBytes p.event s w) := by
      rw [hw]
      rcases h with h | h
      · exact absurd h.1 hp
      · exact Or.inr ⟨hp',h.2.1,hh.trans h.2.2⟩
    refine ⟨h,?_⟩
    simp only [receivedLoop, watched, loop_event]
    exact ih (fun q hq => hps q (by simp [hq])) _ _ hr' hl' hp' h'

theorem idle_step (e : Event) (he : e = .inDone ∨ e = .quiet) (s : Stage2) (w : List Byte)
    (h : Open req before s w) : turn b e s = s ∧ watchBytes e s w = w := by
  rcases he with rfl | rfl
  · rw [turn_event b .inDone s h.running h.live]
    simp only [onEvent, in_dataOut_same s.usb h.phase]
    exact ⟨trivial,by simp [watchBytes]⟩
  · rw [turn_quiet b s (fun _ => h.live)]
    exact ⟨rfl,by simp [watchBytes]⟩

section Out
variable {req before} (rxLen : BitVec 16) (buf : ℕ → Byte) (s : Stage2) (w : List Byte)
  (h : Open req before s w) (hl : rxLen ≤ 64)
include h

theorem out_watch : watchBytes (.out rxLen buf) s w = w ++ packetBytes rxLen buf := by
  simp [watchBytes, h.running, h.phase]

theorem out_watch_length :
    (watchBytes (.out rxLen buf) s w).length = w.length + rxLen.toNat := by
  rw [out_watch rxLen buf s w h, List.length_append, packetBytes_length]

theorem out_ends (hends : DataStageEnds rxLen s.usb) :
    (turn b (.out rxLen buf) s).reset = false ∧ ¬ Resets (turn b (.out rxLen buf) s).dfu.state ∧
      (turn b (.out rxLen buf) s).usb.ctrlPhase ≠ .ctrlDataOut ∧
      (turn b (.out rxLen buf) s).handled =
        before ++ [⟨req.wValue.setWidth 32,(takePacket rxLen buf s.usb).dfuRxOffset⟩] := by
  have hc : CallsData rxLen s.usb := ⟨h.phase,hends,h.request⟩
  have hh : handedOver b (.out rxLen buf) s = some (rxSource b (takePacket rxLen buf s.usb),
      (takePacket rxLen buf s.usb).dfuRxOffset) := if_pos ⟨h.running,hc⟩
  obtain ⟨hd,-⟩ := turn_handed b (.out rxLen buf) s (fun _ => h.live) _ _ hh
  have hcall := turn_handled b (.out rxLen buf) s
  rw [hh] at hcall
  have hlive : ¬ Resets (onEvent b (.out rxLen buf) s).dfu.state := by
    rw [event_dfu]
    simp only [if_pos hc]
    exact data_live b.hw _ _ s.dfu s.fmc h.live
  have hsame := turn_event b (.out rxLen buf) s h.running hlive
  refine ⟨by rw [hsame, event_reset, h.running],by rw [hsame]; exact hlive,?_,?_⟩
  · rw [hsame, event_usb]
    simp only [calls_idle hc]
    decide
  · rw [hcall, h.handled, h.blockNum]

include hl in
theorem out_open (h64 : rxLen = 64) (hmore : 64 < req.wLength.toNat - w.length) :
    Open req before (turn b (.out rxLen buf) s) (watchBytes (.out rxLen buf) s w) := by
  have hends : ¬ DataStageEnds rxLen s.usb := by
    have hrem := h.remaining
    rw [h64]
    exact full_packet_continues (by omega)
  have hst := take_reassembled s.usb w rxLen buf hl h.full h.stocked
  have hlen := out_watch_length rxLen buf s w h
  rw [turn_more b rxLen buf s h.running h.live h.phase hends]
  have hcount : (takePacket rxLen buf s.usb).ctrlDataRemaining.toNat =
      req.wLength.toNat - (watchBytes (.out rxLen buf) s w).length := by
    have hrem := h.remaining
    rw [take_remaining, hlen, h64]
    bv_omega
  have hphase : (takePacket rxLen buf s.usb).ctrlPhase = .ctrlDataOut :=
    (take_phase _ _ _).trans h.phase
  have hrequest : (takePacket rxLen buf s.usb).ctrlRequest = dfuDnload :=
    (take_request _ _ _).trans h.request
  have h64' : rxLen.toNat = 64 := by rw [h64]; rfl
  rw [← out_watch rxLen buf s w h] at hst
  generalize takePacket rxLen buf s.usb = u at *
  exact ⟨h.running,h.live,hphase,hrequest,h.blockNum,by omega,hcount,
    by rw [hlen, h64']; exact Nat.dvd_add h.full ⟨1,rfl⟩,hst,h.handled⟩

include hl in
theorem out_wrong (hlast : rxLen.toNat ≠ req.wLength.toNat - w.length)
    (hmore : ¬ (rxLen = 64 ∧ 64 < req.wLength.toNat - w.length)) :
    ¬ Accounted req before (turn b (.out rxLen buf) s) (watchBytes (.out rxLen buf) s w) := by
  have hlen := out_watch_length rxLen buf s w h
  have hrem := h.remaining
  have hmiss := h.missing
  have hl' : rxLen.toNat ≤ 64 := hl
  by_cases hends : DataStageEnds rxLen s.usb
  · obtain ⟨-,-,hp,-⟩ := out_ends b rxLen buf s w h hends
    rintro (ha | ha)
    · exact hp ha.1
    · omega
  · rw [turn_more b rxLen buf s h.running h.live h.phase hends]
    have h64 : rxLen.toNat = 64 := by
      have hlt : ¬ rxLen < ep0MaxPacket := fun hc => hends (Or.inr hc)
      have h64' : ep0MaxPacket.toNat = 64 := rfl
      bv_omega
    have h64' : rxLen = 64 := by bv_omega
    rintro (ha | ha)
    · have := ha.2.1
      have hover : ¬ 64 < req.wLength.toNat - w.length := fun hc => hmore ⟨h64',hc⟩
      omega
    · exact ha.1 ((take_phase _ _ _).trans h.phase)

include hl in
theorem out_last (hlast : rxLen.toNat = req.wLength.toNat - w.length) :
    Accounted req before (turn b (.out rxLen buf) s) (watchBytes (.out rxLen buf) s w) ↔
      req.wLength.toNat ≤ 4096 := by
  have hlen := out_watch_length rxLen buf s w h
  have hmiss := h.missing
  have hrem := h.remaining
  have hends : DataStageEnds rxLen s.usb := Or.inl (by bv_omega)
  obtain ⟨-,-,hp,hcalls⟩ := out_ends b rxLen buf s w h hends
  have hst := (take_reassembled s.usb w rxLen buf hl h.full h.stocked).length
  rw [← out_watch rxLen buf s w h, hlen] at hst
  constructor
  · rintro (ha | ha)
    · exact absurd ha.1 hp
    · have hc := ha.2.2
      rw [hcalls, List.append_cancel_left_eq, List.cons.injEq, DataCall.mk.injEq] at hc
      rw [hc.1.2] at hst
      omega
  · intro hfit
    refine Or.inr ⟨hp,by omega,?_⟩
    rw [hcalls, show (takePacket rxLen buf s.usb).dfuRxOffset = req.wLength by
      rw [← BitVec.toNat_inj]; omega]

include hl in
/-- One packet of an open stage, and what follows it: the last packet has to bring
what is missing, and any other one 64 bytes. -/
theorem out_throughout (ps : List Poll) (hps : ∀ p ∈ ps, Continues p.event)
    (ih : Open req before (turn b (.out rxLen buf) s) (watchBytes (.out rxLen buf) s w) →
      (Throughout (receivedLoop b) (fun q => Accounted req before q.1 q.2) ps
        (turn b (.out rxLen buf) s,watchBytes (.out rxLen buf) s w) ↔
      Delivers req.wLength.toNat
        (req.wLength.toNat - (watchBytes (.out rxLen buf) s w).length) (ps.map Poll.event))) :
    Throughout (receivedLoop b) (fun q => Accounted req before q.1 q.2) ps
        (turn b (.out rxLen buf) s,watchBytes (.out rxLen buf) s w) ↔
      Delivers req.wLength.toNat (req.wLength.toNat - w.length)
        (.out rxLen buf :: ps.map Poll.event) := by
  have hlen := out_watch_length rxLen buf s w h
  rw [Delivers]
  by_cases hlast : rxLen.toNat = req.wLength.toNat - w.length
  · have hmore : ¬ (rxLen = 64 ∧ 64 < req.wLength.toNat - w.length ∧ Delivers req.wLength.toNat
        (req.wLength.toNat - w.length - 64) (ps.map Poll.event)) := by
      rintro ⟨rfl,hlt,-⟩
      rw [← hlast] at hlt
      exact absurd hlt (by decide)
    have hcount := out_last b rxLen buf s w h hl hlast
    rw [or_iff_left hmore, and_iff_right hlast, ← hcount]
    constructor
    · exact throughout_first (receivedLoop b) (fun q => Accounted req before q.1 q.2) _ _
    · intro hacc
      have hrem := h.remaining
      have hends : DataStageEnds rxLen s.usb := Or.inl (by bv_omega)
      obtain ⟨hr',hl',hp',-⟩ := out_ends b rxLen buf s w h hends
      exact ended_throughout b req before ps hps _ _ hr' hl' hp' hacc
  · rw [or_iff_right (fun hc => hlast hc.1)]
    by_cases hmore : rxLen = 64 ∧ 64 < req.wLength.toNat - w.length
    · have hopen := out_open b rxLen buf s w h hl hmore.1 hmore.2
      have h64 : rxLen.toNat = 64 := by rw [hmore.1]; rfl
      rw [ih hopen, hlen, h64, Nat.sub_add_eq]
      exact ⟨fun hd => ⟨hmore.1,hmore.2,hd⟩,fun hd => hd.2.2⟩
    · have hwrong := out_wrong b rxLen buf s w h hl hlast hmore
      exact iff_of_false (fun hc => hwrong
        (throughout_first (receivedLoop b) (fun q => Accounted req before q.1 q.2) _ _ hc))
        (fun hc => hmore ⟨hc.1,hc.2.1⟩)

end Out

/-- From an open stage on, the count stays right exactly if the packets deliver. -/
theorem open_throughout (ps : List Poll) (hps : ∀ p ∈ ps, Continues p.event) (s : Stage2)
    (w : List Byte) (h : Open req before s w) :
    Throughout (receivedLoop b) (fun q => Accounted req before q.1 q.2) ps (s,w) ↔
      Delivers req.wLength.toNat (req.wLength.toNat - w.length) (ps.map Poll.event) := by
  induction ps generalizing s w with
  | nil => exact iff_of_true (open_accounted h) trivial
  | cons p ps ih =>
    have hp := hps p (by simp)
    have hrest : ∀ q ∈ ps, Continues q.event := fun q hq => hps q (by simp [hq])
    have hstep : receivedLoop b p (s,w) = (turn b p.event s,watchBytes p.event s w) := by
      simp only [receivedLoop, watched, loop_event]
    rw [Throughout, and_iff_right (open_accounted h), hstep, List.map_cons]
    cases he : p.event with
    | setup req' =>
      rw [he] at hp
      exact absurd hp id
    | busReset =>
      rw [he] at hp
      exact absurd hp id
    | inDone =>
      obtain ⟨hs,hw⟩ := idle_step b req before .inDone (Or.inl rfl) s w h
      rw [hs, hw]
      exact ih hrest s w h
    | quiet =>
      obtain ⟨hs,hw⟩ := idle_step b req before .quiet (Or.inr rfl) s w h
      rw [hs, hw]
      exact ih hrest s w h
    | out l buf =>
      rw [he] at hp
      exact out_throughout b l buf s w h hp ps hrest (fun hopen => ih hrest _ _ hopen)

end Stage

theorem setup_open (b : Board) (req : SetupPacket) (ha : Announces req) (s : Stage2)
    (hr : s.reset = false) : Open req s.handled (turn b (.setup req) s) [] := by
  obtain ⟨hsame,hlive⟩ := download_turn b req ha.download s hr
  have hphase := (setup_dataOut req s.usb s.dfu).mpr ⟨ha.download.2.2,ha.toDevice⟩
  obtain ⟨hrem,hoff⟩ := setup_dataOut_counters req s.usb s.dfu hphase
  have hu : (onEvent b (.setup req) s).usb = (onSetup req s.usb s.dfu).1 := event_usb b _ s
  have hd : (onEvent b (.setup req) s).dfu = routeDfu req s.dfu := event_dfu b _ s
  have hw : req.wLength ≠ 0 := ha.download.2.2
  have hrun : (onEvent b (.setup req) s).reset = false := (event_reset b _ s).trans hr
  have hrequest : (onEvent b (.setup req) s).usb.ctrlRequest = dfuDnload := by
    rw [hu, setup_request, ha.download.2.1]
  have hblock : (onEvent b (.setup req) s).dfu.dfuBlockNum = req.wValue.setWidth 32 := by
    rw [hd, download_dfu req s.dfu ha.download]
  have hcalls : (onEvent b (.setup req) s).handled = s.handled := rfl
  rw [hsame]
  refine ⟨hrun,hlive,hu ▸ hphase,hrequest,hblock,?_,?_,⟨0,rfl⟩,?_,hcalls⟩
  · rw [List.length_nil]
    bv_omega
  · rw [hu, hrem]
    rfl
  · rw [hu, hoff]
    exact ⟨rfl,by simp⟩

/-- The count comes out right after a download request, whatever came before it,
exactly if the packets that follow deliver the length it announced. -/
theorem counts_right_iff (b : Board) (f : Fmc) (before ps : List Poll) (p : Poll)
    (req : SetupPacket) (hp : p.event = .setup req) (ha : Announces req)
    (hps : ∀ q ∈ ps, Continues q.event)
    (hr : (run (loopTurn b) before (boot f)).reset = false) :
    Throughout (receivedLoop b)
        (fun q => Accounted req (run (loopTurn b) before (boot f)).handled q.1 q.2) ps
        (loopTurn b p (run (loopTurn b) before (boot f)),[]) ↔
      Delivers req.wLength.toNat req.wLength.toNat (ps.map Poll.event) := by
  rw [loop_event, hp]
  exact open_throughout b req _ ps hps _ [] (setup_open b req ha _ hr)

/-- After a transfer cut short, 65 bytes in two packets are counted right. -/
theorem two_packets_counted :
    let before := [setupPoll ⟨0x21,dfuDnload,2,0,4096⟩,outPoll (List.replicate 64 1)]
    let p := setupPoll ⟨0x21,dfuDnload,3,0,65⟩
    let ps := [outPoll (List.replicate 64 2),inPoll,outPoll [3]]
    Throughout (receivedLoop perfectBoard)
        (fun q => Accounted ⟨0x21,dfuDnload,3,0,65⟩
          (run (loopTurn perfectBoard) before (perfectBoot fun _ => 0xFF)).handled q.1 q.2) ps
        (loopTurn perfectBoard p
          (run (loopTurn perfectBoard) before (perfectBoot fun _ => 0xFF)),[]) ↔
      Delivers 65 65 (ps.map Poll.event) :=
  counts_right_iff perfectBoard _ _ _ _ ⟨0x21,dfuDnload,3,0,65⟩ (setup_poll _)
    ⟨by decide,by decide⟩ (by decide) (by decide)

/-- A ten-byte packet ends a stage of a hundred bytes, and is handed over. -/
theorem short_packet_processed :
    ¬ (∀ (b : Board) (f : Fmc) (before ps : List Poll) (p : Poll) (req : SetupPacket),
      p.event = .setup req → Announces req → (∀ q ∈ ps, Continues q.event) →
      (run (loopTurn b) before (boot f)).reset = false →
      Throughout (receivedLoop b)
        (fun q => Accounted req (run (loopTurn b) before (boot f)).handled q.1 q.2) ps
        (loopTurn b p (run (loopTurn b) before (boot f)),[])) := by
  intro h
  have hc := throughout_last _ _ _ _ (h perfectBoard (IdealFlash.resetFmc fun _ => 0xFF) []
    [outPoll (List.replicate 10 0)] (setupPoll ⟨0x21,dfuDnload,2,0,100⟩)
    ⟨0x21,dfuDnload,2,0,100⟩ (setup_poll _) ⟨by decide,by decide⟩ (by decide) rfl)
  exact absurd hc (by decide +kernel)

end Swindle.DataStageLength
