import Swindle.UsbHost

/-!
# The gate in front of the data handler

Payloads should reach the data handler only through a class DNLOAD request. The
driver compares the request number alone when the data stage is over, although
it has stored the request type.
-/

set_option autoImplicit false

namespace Swindle.DownloadGate
open Swindle.WordMemory Swindle.FlashController Swindle.DfuHandlers Swindle.UsbDriver
open Swindle.StageTwo Swindle.UsbHost Swindle.MachineRuns

/-- The control transfer under way: its SETUP packet and the number of bytes
the OUT packets after it have brought, modulo 2^16 like `wLength`. -/
structure Transfer where
  req : SetupPacket
  received : BitVec 16
deriving DecidableEq

def watchSetup (e : Event) (s : Stage2) (w : Option Transfer) : Option Transfer :=
  if s.reset then w else
  match e with
  | .setup req => some ⟨req,0⟩
  | .out rxLen _ => w.map fun t => { t with received := t.received + rxLen }
  | .busReset => none
  | _ => w

def watchedLoop (b : Board) : Poll → Stage2 × Option Transfer → Stage2 × Option Transfer :=
  watched (loopTurn b) fun p => watchSetup p.event

/-- The event is the OUT packet that ends the data stage of the transfer: it is
short, or it brings the last of the `wLength` bytes. -/
def EndsStage (e : Event) (t : Transfer) : Prop :=
  match e with
  | .out rxLen _ => rxLen < ep0MaxPacket ∨ t.received + rxLen = t.req.wLength
  | _ => False

/-- A call of the data handler comes with the packet that ends the data stage of
a class DNLOAD request to the device, after which the driver waits for no more
data, and meets the block number of that request. A transfer of another type
changes nothing. -/
structure Gated (b : Board) (e : Event) (s : Stage2) (w : Option Transfer) : Prop where
  download : (turn b e s).handled ≠ s.handled → ∃ t len, w = some t ∧ IsDownload t.req ∧
    t.req.bmRequestType &&& usbDirIn = 0 ∧ EndsStage e t ∧
    s.usb.ctrlPhase = .ctrlDataOut ∧ (turn b e s).usb.ctrlPhase = .ctrlIdle ∧
    (turn b e s).handled = s.handled ++ [⟨t.req.wValue.setWidth 32,len⟩]
  foreign : ∀ t, watchSetup e s w = some t → requestType t.req ≠ 0x20 →
    (turn b e s).dfu = s.dfu ∧ (turn b e s).fmc = s.fmc

/-- The end of a data stage that is taken for a download although its request
is not a class request. -/
def Stray (e : Event) (s : Stage2) : Prop :=
  match e with
  | .out rxLen _ => s.reset = false ∧ CallsData rxLen s.usb ∧ s.usb.ctrlReqType &&& 0x60 ≠ 0x20
  | _ => False

instance (e : Event) (s : Stage2) : Decidable (Stray e s) :=
  match e with
  | .out _ _ => inferInstanceAs (Decidable (_ ∧ _ ∧ _))
  | .setup _ => isFalse id
  | .inDone => isFalse id
  | .busReset => isFalse id
  | .quiet => isFalse id

/-- What the driver's variables say about the transfer under way. -/
def Tracks (u : Usb) (d : Dfu) : Option Transfer → Prop
  | none => u.ctrlPhase ≠ .ctrlDataOut
  | some t => u.ctrlReqType = t.req.bmRequestType ∧ u.ctrlRequest = t.req.bRequest ∧
      (u.ctrlPhase = .ctrlDataOut → t.req.wLength ≠ 0 ∧ t.req.bmRequestType &&& usbDirIn = 0 ∧
        u.ctrlDataRemaining = t.req.wLength - t.received) ∧
      (IsDownload t.req → d.dfuBlockNum = t.req.wValue.setWidth 32)

theorem out_remaining {rxLen : BitVec 16} {buf : ℕ → Byte} {u : Usb}
    (h : (outUsb rxLen buf u).ctrlPhase = .ctrlDataOut) :
    (outUsb rxLen buf u).ctrlDataRemaining = u.ctrlDataRemaining - rxLen := by
  have hp := out_dataOut h
  by_cases he : DataStageEnds rxLen u
  · rw [outUsb, if_pos hp, if_pos he] at h
    cases h
  · rw [out_more buf hp he]
    rfl

theorem turn_blockNum (b : Board) (e : Event) (s : Stage2) (hr : s.reset = false) :
    (turn b e s).dfu.dfuBlockNum =
    match e with
    | .setup req => if IsDownload req then req.wValue.setWidth 32 else s.dfu.dfuBlockNum
    | _ => s.dfu.dfuBlockNum := by
  rw [turn_live b e s hr, afterPoll_eq]
  simp only [event_dfu]
  cases e with
  | setup req => exact route_blockNum req s.dfu
  | out l buf =>
    simp only [dataCall, handleData]
    split_ifs
    · exact data_blockNum _ _ _ _ _
    · rfl
  | inDone => rfl
  | busReset => rfl
  | quiet => rfl

theorem turn_tracks (b : Board) (e : Event) (s : Stage2) (w : Option Transfer)
    (h : Tracks s.usb s.dfu w) :
    Tracks (turn b e s).usb (turn b e s).dfu (watchSetup e s w) := by
  cases hr : s.reset with
  | true =>
    simp only [turn_reset b e s hr, watchSetup, hr, if_true]
    exact h
  | false =>
    have hn := turn_blockNum b e s hr
    have hu := turn_usb b e s hr
    simp only [watchSetup, hr, Bool.false_eq_true, if_false, hu]
    cases e with
    | setup req =>
      refine ⟨setup_reqType _ _ _,setup_request _ _ _,fun hp => ?_,fun hd => ?_⟩
      · obtain ⟨hl,hin⟩ := (setup_dataOut _ _ _).mp hp
        exact ⟨hl,hin,(setup_dataOut_counters _ _ _ hp).1.trans (by simp)⟩
      · exact hn.trans (if_pos hd)
    | busReset => exact (by decide : CtrlPhase.ctrlIdle ≠ .ctrlDataOut)
    | quiet =>
      cases w with
      | none => exact h
      | some t => exact ⟨h.1,h.2.1,h.2.2.1,hn ▸ h.2.2.2⟩
    | inDone =>
      cases w with
      | none => exact fun hp => h ((in_dataOut s.usb).mp hp)
      | some t =>
        refine ⟨(in_reqType _).trans h.1,(in_request _).trans h.2.1,fun hp => ?_,hn ▸ h.2.2.2⟩
        have hp' := (in_dataOut s.usb).mp hp
        obtain ⟨hl,hin,hrem⟩ := h.2.2.1 hp'
        exact ⟨hl,hin,(congrArg (·.ctrlDataRemaining) (in_dataOut_same _ hp')).trans hrem⟩
    | out l buf =>
      cases w with
      | none => exact fun hp => h (out_dataOut hp)
      | some t =>
        refine ⟨(out_reqType _ _ _).trans h.1,(out_request _ _ _).trans h.2.1,fun hp => ?_,
          hn ▸ h.2.2.2⟩
        obtain ⟨hl,hin,hrem⟩ := h.2.2.1 (out_dataOut hp)
        refine ⟨hl,hin,(out_remaining hp).trans ?_⟩
        rw [hrem, BitVec.sub_sub]

theorem handed_stray (b : Board) (e : Event) (s : Stage2) (h : handedOver b e s ≠ none) :
    s.reset = false ∧ s.usb.ctrlPhase = .ctrlDataOut ∧ s.usb.ctrlRequest = dfuDnload ∧
      (Stray e s ↔ s.usb.ctrlReqType &&& 0x60 ≠ 0x20) := by
  cases e with
  | out l buf =>
    simp only [handedOver] at h
    split_ifs at h with hc
    · exact ⟨hc.1,hc.2.1,hc.2.2.2,fun hs => hs.2.2,fun ht => ⟨hc.1,hc.2,ht⟩⟩
    · exact absurd rfl h
  | _ => exact absurd rfl h

theorem handed_ends (b : Board) (e : Event) (s : Stage2) (t : Transfer)
    (h : handedOver b e s ≠ none) (hrem : s.usb.ctrlDataRemaining = t.req.wLength - t.received) :
    EndsStage e t := by
  cases e with
  | out l buf =>
    simp only [handedOver] at h
    split_ifs at h with hc
    · rcases hc.2.2.1 with hz | hshort
      · exact .inr (by bv_omega)
      · exact .inl hshort
    · exact absurd rfl h
  | _ => exact absurd rfl h

theorem handed_idle (b : Board) (e : Event) (s : Stage2) (h : handedOver b e s ≠ none) :
    (turn b e s).usb.ctrlPhase = .ctrlIdle := by
  cases e with
  | out l buf =>
    simp only [handedOver] at h
    split_ifs at h with hc
    · rw [turn_usb b _ s hc.1]
      exact calls_idle hc.2
    · exact absurd rfl h
  | _ => exact absurd rfl h

theorem stray_handed (b : Board) (e : Event) (s : Stage2) (h : Stray e s) :
    ∃ call, handedOver b e s = some call := by
  cases e with
  | out l buf => exact ⟨_,if_pos ⟨h.1,h.2.1⟩⟩
  | _ => exact absurd h id

/-- Without a call the DFU variables move with class requests only. -/
theorem turn_unhanded (b : Board) (e : Event) (s : Stage2) (hs : Settled s)
    (h : handedOver b e s = none)
    (hc : s.reset = false → ∀ req, e = .setup req → requestType req ≠ 0x20) :
    (turn b e s).dfu = s.dfu ∧ (turn b e s).fmc = s.fmc := by
  have hf := turn_fmc b e s
  rw [h] at hf
  refine ⟨?_,hf⟩
  cases hr : s.reset with
  | true => rw [turn_reset b e s hr]
  | false =>
    have hd : (onEvent b e s).dfu = s.dfu := by
      rw [event_dfu]
      cases e with
      | setup req => exact if_neg (hc hr req rfl)
      | out l buf =>
        have hn : ¬ CallsData l s.usb := by
          intro hcd
          simp only [handedOver, hr, hcd, and_self, if_true] at h
          cases h
        exact if_neg hn
      | _ => rfl
    rw [turn_live b e s hr, afterPoll_same _ (hd ▸ hs hr), hd]

/-- A payload that is not stray belongs to the download under way and comes with
the packet that ends its data stage. -/
theorem handed_tracked (b : Board) (e : Event) (s : Stage2) (w : Option Transfer)
    (h : Tracks s.usb s.dfu w) (hn : ¬ Stray e s) (hh : handedOver b e s ≠ none) :
    ∃ t, w = some t ∧ IsDownload t.req ∧ t.req.bmRequestType &&& usbDirIn = 0 ∧
      EndsStage e t ∧ s.dfu.dfuBlockNum = t.req.wValue.setWidth 32 := by
  obtain ⟨-,hp,hq,hstray⟩ := handed_stray b e s hh
  cases w with
  | none => exact absurd hp h
  | some t =>
    obtain ⟨h1,h2,h3,h4⟩ := h
    obtain ⟨hl,hin,hrem⟩ := h3 hp
    have ht : requestType t.req = 0x20 := by
      by_contra hc
      rw [requestType, ← h1] at hc
      exact hn (hstray.mpr hc)
    have hd : IsDownload t.req := ⟨ht,h2 ▸ hq,hl⟩
    exact ⟨t,rfl,hd,hin,handed_ends b e s t hh hrem,h4 hd⟩

/-- As long as no payload is stray, a foreign request changes nothing. -/
theorem foreign_ignored (b : Board) (e : Event) (s : Stage2) (w : Option Transfer)
    (hs : Settled s) (h : Tracks s.usb s.dfu w) (hn : ¬ Stray e s) (t : Transfer)
    (hw : watchSetup e s w = some t) (ht : requestType t.req ≠ 0x20) :
    (turn b e s).dfu = s.dfu ∧ (turn b e s).fmc = s.fmc := by
  cases hh : handedOver b e s with
  | none =>
    refine turn_unhanded b e s hs hh (fun hr req' he => ?_)
    subst he
    simp only [watchSetup, hr, Bool.false_eq_true, if_false] at hw
    cases hw
    exact ht
  | some call =>
    have hne : handedOver b e s ≠ none := by rw [hh]; simp
    obtain ⟨t',rfl,hd,-⟩ := handed_tracked b e s w h hn hne
    have hreq : t.req = t'.req := by
      cases e with
      | out l buf =>
        rw [watchSetup, (handed_stray b _ s hne).1] at hw
        cases hw
        rfl
      | _ => exact absurd rfl hne
    exact absurd (hreq ▸ hd.1) ht

theorem turn_gated (b : Board) (e : Event) (s : Stage2) (w : Option Transfer)
    (hs : Settled s) (h : Tracks s.usb s.dfu w) : Gated b e s w ↔ ¬ Stray e s := by
  have hcalls := turn_handled b e s
  constructor
  · intro hg hstray
    obtain ⟨call,hcall⟩ := stray_handed b e s hstray
    have hne : handedOver b e s ≠ none := by rw [hcall]; simp
    rw [hcall] at hcalls
    obtain ⟨t,len,rfl,hd,-⟩ := hg.download (by rw [hcalls]; simp)
    obtain ⟨-,-,-,ht⟩ := handed_stray b e s hne
    exact ht.mp hstray (h.1 ▸ hd.1)
  · intro hn
    refine ⟨fun hgrows => ?_,foreign_ignored b e s w hs h hn⟩
    cases hh : handedOver b e s with
    | none =>
      rw [hh] at hcalls
      exact absurd hcalls hgrows
    | some call =>
      have hne : handedOver b e s ≠ none := by rw [hh]; simp
      rw [hh] at hcalls
      obtain ⟨t,hw,hd,hin,hends,hblock⟩ := handed_tracked b e s w h hn hne
      rw [hblock] at hcalls
      exact ⟨t,call.2,hw,hd,hin,hends,(handed_stray b e s hne).2.1,handed_idle b e s hne,hcalls⟩

/-- Payloads reach the data handler at the end of the data stage of class DNLOAD
requests only, along a run, exactly when no data stage of another request numbered like DNLOAD ends. -/
theorem only_downloads_handed_over (b : Board) (f : Fmc) (ps : List Poll) :
    Along (watchedLoop b) (fun p q => Gated b p.event q.1 q.2) ps (boot f,none) ↔
      Along (watchedLoop b) (fun p q => ¬ Stray p.event q.1) ps (boot f,none) := by
  apply along_exchange _ _ _ (fun q => Settled q.1 ∧ Tracks q.1.usb q.1.dfu q.2)
  · rintro p q ⟨hs,ht⟩
    exact turn_gated b p.event q.1 q.2 hs ht
  · rintro p q - ⟨hs,ht⟩
    simp only [watchedLoop, watched, loop_event]
    exact ⟨settled_turn b p.event q.1 hs,turn_tracks b p.event q.1 q.2 ht⟩
  · exact ⟨settled_boot f,show CtrlPhase.ctrlIdle ≠ .ctrlDataOut by decide⟩

def strayCommand : List Poll :=
  [setupPoll ⟨0x00,dfuDnload,0,0,5⟩,outPoll [dfuseCmdSetAddress,0,0x40,0,0]]

theorem stray_command_executed : ¬ ∀ (b : Board) (f : Fmc) (ps : List Poll),
    Along (watchedLoop b) (fun p q => Gated b p.event q.1 q.2) ps (boot f,none) := by
  intro h
  obtain ⟨-,hg,-⟩ := h perfectBoard (IdealFlash.resetFmc fun _ => 0xFF) strayCommand
  have hf := (hg.foreign ⟨⟨0x00,dfuDnload,0,0,5⟩,5⟩ (by decide +kernel) (by decide)).1
  exact absurd hf (by decide +kernel)

end Swindle.DownloadGate
