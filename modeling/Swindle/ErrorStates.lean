import Swindle.DownloadGate

/-!
# How long an error lasts

No handler looks at the state it finds. An error lasts until the next class
request that sets a state of its own; the remaining requests report it, and
nothing reaches the flash meanwhile.
-/

set_option autoImplicit false

namespace Swindle.ErrorStates
open Swindle.WordMemory Swindle.FlashController Swindle.DfuHandlers Swindle.UsbDriver
open Swindle.StageTwo Swindle.UsbHost Swindle.MachineRuns Swindle.DownloadGate

def Requests (numbers : List Byte) : Event → Prop
  | .setup req => requestType req = 0x20 ∧ req.bRequest ∈ numbers
  | _ => False

instance (numbers : List Byte) : ∀ e, Decidable (Requests numbers e)
  | .setup _ => inferInstanceAs (Decidable (_ ∧ _))
  | .inDone => isFalse id
  | .out _ _ => isFalse id
  | .busReset => isFalse id
  | .quiet => isFalse id

def clearing : List Byte := [dfuClrstatus,dfuAbort,dfuDetach]

/-- The requests that leave the error state: those meant to, and the ones that start
a transfer. -/
def leaving : List Byte := dfuDnload :: dfuUpload :: clearing

/-- An error is never reported as OK, is not found inside the data stage of a
download, and is not what a reset machine stopped in. -/
structure ErrorKept (s : Stage2) : Prop where
  status : s.dfu.state = .dfuError → s.dfu.status ≠ .ok
  stage : s.dfu.state = .dfuError → s.usb.ctrlPhase = .ctrlDataOut →
    s.usb.ctrlRequest = dfuDnload → s.usb.ctrlReqType &&& 0x60 ≠ 0x20
  running : s.dfu.state = .dfuError → s.reset = false

theorem error_boot (f : Fmc) : ErrorKept (boot f) where
  status he := absurd he (by simp [boot, Dfu.init])
  stage he := absurd he (by simp [boot, Dfu.init])
  running he := absurd he (by simp [boot, Dfu.init])

theorem getstatus_error {st : DfuState} : getstatusState st = .dfuError ↔ st = .dfuError := by
  cases st <;> decide

theorem leaving_set (req : SetupPacket) : req.bRequest ∈ leaving ↔ stateSet req ≠ none := by
  simp only [leaving, clearing, List.mem_cons, List.not_mem_nil, or_false, stateSet]
  split_ifs <;> simp_all

theorem set_live {req : SetupPacket} {st : DfuState} (h : stateSet req = some st) :
    st ≠ .dfuError := by
  rcases stateSet_cases req h with ⟨rfl,-⟩ | ⟨rfl,-⟩ | ⟨rfl,-⟩ | ⟨rfl,-⟩ | ⟨rfl,-⟩ <;> decide

theorem leaving_dfu (req : SetupPacket) (d : Dfu) (h : req.bRequest ∈ leaving) :
    (dfuHandleRequest req d).dfu.state ≠ .dfuError ∧ (dfuHandleRequest req d).dfu.status = .ok := by
  obtain ⟨st,hst⟩ := Option.ne_none_iff_exists'.mp ((leaving_set req).mp h)
  rw [request_dfu, hst]
  exact ⟨set_live hst,rfl⟩

theorem staying_dfu (req : SetupPacket) (d : Dfu) (h : req.bRequest ∉ leaving) :
    (dfuHandleRequest req d).dfu =
      { d with state := if req.bRequest = dfuGetstatus then getstatusState d.state else d.state } := by
  rw [leaving_set, not_not] at h
  rw [request_dfu, h]
  simp only
  split_ifs <;> rfl

/-- A request after which the state is an error has found that error and kept it. -/
theorem route_error (req : SetupPacket) (d : Dfu) : (routeDfu req d).state = .dfuError ↔
    d.state = .dfuError ∧ ¬ Requests leaving (.setup req) := by
  unfold routeDfu Requests
  by_cases ht : requestType req = 0x20
  · by_cases hm : req.bRequest ∈ leaving
    · rw [if_pos ht]
      exact iff_of_false (leaving_dfu req d hm).1 (fun hc => hc.2 ⟨ht,hm⟩)
    · rw [if_pos ht, staying_dfu req d hm]
      have hn : ¬ (requestType req = 0x20 ∧ req.bRequest ∈ leaving) := fun hc => hm hc.2
      simp only [hn, not_false_eq_true, and_true]
      split_ifs
      · exact getstatus_error
      · rfl
  · rw [if_neg ht]
    exact (and_iff_left (fun hc => ht hc.1)).symm

theorem route_kept (req : SetupPacket) (d : Dfu) (hd : d.state = .dfuError)
    (h : ¬ Requests leaving (.setup req)) : routeDfu req d = d := by
  unfold routeDfu
  split_ifs with ht
  · rw [staying_dfu req d (fun hm => h ⟨ht,hm⟩), hd]
    split_ifs <;> rw [← hd]
    rw [getstatus_error.mpr hd, ← hd]
  · rfl

theorem turn_error (b : Board) (e : Event) (s : Stage2) (hr : s.reset = false)
    (h : (turn b e s).dfu.state = .dfuError) :
    (onEvent b e s).dfu.state = .dfuError ∧ turn b e s = onEvent b e s := by
  rw [turn_live b e s hr] at h ⊢
  have he : (onEvent b e s).dfu.state = .dfuError := by
    rw [afterPoll_eq] at h
    simp only [settledState] at h
    split_ifs at h
    exact h
  exact ⟨he,afterPoll_same _ (he ▸ not_resets_error)⟩

theorem setup_error (b : Board) (req : SetupPacket) (s : Stage2) (h : ErrorKept s)
    (hr : s.reset = false) : ErrorKept (onEvent b (.setup req) s) := by
  refine ⟨fun he => ?_,fun he hp hq ht => ?_,fun _ => hr⟩
  · rw [event_dfu] at he ⊢
    obtain ⟨hd,hl⟩ := (route_error req s.dfu).mp he
    simp only [route_kept req s.dfu hd hl]
    exact h.status hd
  · rw [event_dfu] at he
    rw [event_usb] at hp hq ht
    obtain ⟨-,hl⟩ := (route_error req s.dfu).mp he
    simp only [setup_request] at hq
    simp only [setup_reqType] at ht
    exact hl ⟨ht,by simp [leaving, hq]⟩

theorem out_error (b : Board) (l : BitVec 16) (buf : ℕ → Byte) (s : Stage2) (h : ErrorKept s)
    (hn : s.dfu.state = .dfuError → ¬ Stray (.out l buf) s) (hr : s.reset = false) :
    ErrorKept (onEvent b (.out l buf) s) := by
  by_cases hc : CallsData l s.usb
  · have hs : s.dfu.state ≠ .dfuError := by
      intro he
      exact hn he ⟨hr,hc,h.stage he hc.1 hc.2.2⟩
    refine ⟨fun he => ?_,fun _ hp => ?_,fun _ => (event_reset b _ s).trans hr⟩
    · rw [event_dfu] at he ⊢
      simp only [if_pos hc] at he ⊢
      exact data_error _ _ _ _ _ hs he
    · rw [event_usb] at hp
      simp only [calls_idle hc] at hp
      cases hp
  · have hd : (onEvent b (.out l buf) s).dfu = s.dfu := by
      rw [event_dfu]
      exact if_neg hc
    refine ⟨fun he => ?_,fun he hp hq => ?_,fun _ => (event_reset b _ s).trans hr⟩
    · rw [hd] at he ⊢
      exact h.status he
    · rw [hd] at he
      rw [event_usb] at hp hq ⊢
      simp only [out_request] at hq
      simp only [out_reqType]
      exact h.stage he (out_dataOut hp) hq

theorem event_error (b : Board) (e : Event) (s : Stage2) (h : ErrorKept s)
    (hn : s.dfu.state = .dfuError → ¬ Stray e s) (hr : s.reset = false) :
    ErrorKept (onEvent b e s) := by
  cases e with
  | setup req => exact setup_error b req s h hr
  | out l buf => exact out_error b l buf s h hn hr
  | inDone =>
    refine ⟨h.status,fun he hp hq => ?_,fun _ => hr⟩
    rw [event_usb] at hp hq ⊢
    simp only [in_request] at hq
    simp only [in_reqType]
    exact h.stage he ((in_dataOut _).mp hp) hq
  | busReset => exact ⟨h.status,fun _ hp => absurd hp (by simp [onEvent, onBusReset]),fun _ => hr⟩
  | quiet => exact h

theorem turn_kept (b : Board) (e : Event) (s : Stage2) (h : ErrorKept s)
    (hn : s.dfu.state = .dfuError → ¬ Stray e s) : ErrorKept (turn b e s) := by
  cases hr : s.reset with
  | true =>
    rw [turn_reset b e s hr]
    exact h
  | false =>
    have hk := event_error b e s h hn hr
    refine ⟨fun he => ?_,fun he => ?_,fun he => ?_⟩ <;>
      obtain ⟨ho,ht⟩ := turn_error b e s hr he <;> rw [ht]
    · exact hk.status ho
    · exact hk.stage ho
    · exact hk.running ho

theorem turn_sticky (b : Board) (e : Event) (s : Stage2) (h : ErrorKept s) (hn : ¬ Stray e s)
    (he : s.dfu.state = .dfuError) (hl : ¬ Requests leaving e) :
    (turn b e s).dfu = s.dfu ∧ (turn b e s).fmc = s.fmc ∧ (turn b e s).reset = false := by
  have hr := h.running he
  have hh : handedOver b e s = none := by
    cases hh : handedOver b e s with
    | none => rfl
    | some call =>
      obtain ⟨-,hp,hq,hs⟩ := handed_stray b e s (by rw [hh]; simp)
      exact absurd (hs.mpr (h.stage he hp hq)) hn
  have hd : (onEvent b e s).dfu = s.dfu := by
    rw [event_dfu]
    cases e with
    | setup req => exact route_kept req s.dfu he hl
    | out l buf =>
      refine if_neg (fun hc => ?_)
      simp only [handedOver, hr, hc, and_self, if_true] at hh
      cases hh
    | _ => rfl
  have hf := turn_fmc b e s
  rw [hh] at hf
  have ht : turn b e s = onEvent b e s := by
    rw [turn_live b e s hr, afterPoll_same _ (by rw [hd, he]; exact not_resets_error)]
  exact ⟨ht ▸ hd,hf,by rw [ht, event_reset, hr]⟩

def errorReport (e : DfuStatus) : List Byte := [e.code,10,0,0,DfuState.dfuError.code,0]

/-- The error of `d` is still there: the same variables and the same flash, no
reset, and every status request answered with that error. -/
structure Persists (d : Dfu) (f : Fmc) (t : Stage2) : Prop where
  dfu : t.dfu = d
  fmc : t.fmc = f
  running : t.reset = false
  report : ∀ req, requestType req = 0x20 → req.bRequest = dfuGetstatus →
    routeData req t.dfu = errorReport d.status

theorem error_report (req : SetupPacket) (d : Dfu) (hd : d.state = .dfuError)
    (ht : requestType req = 0x20) (hr : req.bRequest = dfuGetstatus) :
    routeData req d = errorReport d.status := by
  rw [routeData, if_neg (by rw [ht]; decide), if_pos ht, getstatus_reply req d hr,
    getstatus_error.mpr hd]
  rfl

/-- The state a DNLOAD or UPLOAD request leaves; without payload a DNLOAD is the
manifest, which the main loop takes on at once. -/
def startedState (req : SetupPacket) : DfuState :=
  if req.bRequest = dfuUpload then .dfuUploadIdle
  else if req.wLength = 0 then .dfuManifestWaitReset
  else .dfuDnloadSync

/-- The request sets its state with status OK, whatever it finds. -/
structure StartsAnew (b : Board) (req : SetupPacket) (t : Stage2) : Prop where
  state : (turn b (.setup req) t).dfu.state = startedState req
  status : (turn b (.setup req) t).dfu.status = .ok

theorem started_set (req : SetupPacket) (h : req.bRequest = dfuDnload ∨ req.bRequest = dfuUpload) :
    ∃ st, stateSet req = some st ∧ settledState st = startedState req := by
  have hdetach : dfuDnload ≠ dfuDetach ∧ dfuUpload ≠ dfuDetach := by decide
  have hupload : dfuDnload ≠ dfuUpload ∧ dfuUpload ≠ dfuDnload := by decide
  rcases h with h | h
  · by_cases hl : req.wLength = 0
    · refine ⟨.dfuManifestSync,?_,?_⟩
      · rw [stateSet, h, if_neg hdetach.1, if_pos rfl, if_pos hl]
      · rw [startedState, h, if_neg hupload.1, if_pos hl]
        rfl
    · refine ⟨.dfuDnloadSync,?_,?_⟩
      · rw [stateSet, h, if_neg hdetach.1, if_pos rfl, if_neg hl]
      · rw [startedState, h, if_neg hupload.1, if_neg hl]
        rfl
  · refine ⟨.dfuUploadIdle,?_,?_⟩
    · rw [stateSet, h, if_neg hdetach.2, if_neg hupload.2, if_pos rfl]
    · rw [startedState, h, if_pos rfl]
      rfl

theorem starts_anew (b : Board) (req : SetupPacket) (t : Stage2) (hr : t.reset = false)
    (ht : requestType req = 0x20) (h : req.bRequest = dfuDnload ∨ req.bRequest = dfuUpload) :
    StartsAnew b req t := by
  obtain ⟨st,hst,hset⟩ := started_set req h
  have hd : (onEvent b (.setup req) t).dfu.state = st ∧
      (onEvent b (.setup req) t).dfu.status = .ok := by
    rw [event_dfu]
    simp only [routeDfu, if_pos ht, request_dfu, hst, and_self]
  constructor <;> rw [turn_live b _ t hr, afterPoll_eq]
  · rw [← hset, ← hd.1]
  · exact hd.2

/-- An error lasts, with its status, the flash and the machine as they are, as
long as no class request sets a state and no foreign data stage is executed. A
DNLOAD or UPLOAD request starts anew in every state, the error among them. -/
theorem errors_persist (b : Board) (f : Fmc) (before after : List Poll)
    (hstray : Along (loopTurn b) (fun p t => ¬ Stray p.event t) (before++after) (boot f))
    (herr : (run (loopTurn b) before (boot f)).dfu.state = .dfuError)
    (hquiet : ∀ p ∈ after, ¬ Requests leaving p.event) :
    let s := run (loopTurn b) before (boot f)
    s.dfu.status ≠ .ok ∧ Throughout (loopTurn b) (Persists s.dfu s.fmc) after s ∧
      ∀ t req, t.reset = false → requestType req = 0x20 →
        req.bRequest = dfuDnload ∨ req.bRequest = dfuUpload → StartsAnew b req t := by
  intro s
  have keep : ∀ (p : Poll) (t : Stage2), ¬ Stray p.event t → ErrorKept t →
      ErrorKept (loopTurn b p t) := by
    intro p t hn hk
    rw [loop_event]
    exact turn_kept b p.event t hk (fun _ => hn)
  obtain ⟨hb,ha⟩ := (along_append _ _ before after _).mp hstray
  have hs : ErrorKept s := run_invariant _ _ _ keep before (boot f) hb (error_boot f)
  refine ⟨hs.status herr,?_,fun t req hr ht h => starts_anew b req t hr ht h⟩
  have hp : Persists s.dfu s.fmc s :=
    ⟨rfl,rfl,hs.running herr,fun req => error_report req s.dfu herr⟩
  have hboth : Along (loopTurn b) (fun p t => ¬ Stray p.event t ∧ ¬ Requests leaving p.event)
      after s := along_members _ _ _ _ _ ha hquiet
  refine throughout_mono _ (fun t => ErrorKept t ∧ Persists s.dfu s.fmc t) _ (fun _ h => h.2) _ _
    (throughout_invariant _ _ _ ?_ after s hboth ⟨hs,hp⟩)
  rintro p t ⟨hn,hl⟩ ⟨hk,ht⟩
  refine ⟨keep p t hn hk,?_⟩
  obtain ⟨h1,h2,h3⟩ := turn_sticky b p.event t hk hn (ht.dfu ▸ herr) hl
  rw [← loop_event] at h1 h2 h3
  exact ⟨h1.trans ht.dfu,h2.trans ht.fmc,h3,fun req => by
    rw [h1, ht.dfu]
    exact error_report req s.dfu herr⟩

def unknownCommand : List Poll := downloadPolls 0 [0x99,0,0,0,0]

def statusPolls : List Poll := [setupPoll ⟨0xA1,dfuGetstatus,0,0,6⟩,inPoll]

theorem unknown_command_persists :
    let s := run (loopTurn perfectBoard) unknownCommand (perfectBoot fun _ => 0xFF)
    s.dfu.status ≠ .ok ∧
      Throughout (loopTurn perfectBoard) (Persists s.dfu s.fmc) statusPolls s ∧
      StartsAnew perfectBoard ⟨0x21,dfuDnload,2,0,64⟩ s := by
  obtain ⟨h1,h2,h3⟩ := errors_persist perfectBoard (IdealFlash.resetFmc fun _ => 0xFF)
    unknownCommand statusPolls (by decide +kernel) (by decide +kernel) (by decide +kernel)
  exact ⟨h1,h2,h3 _ _ (by decide +kernel) (by decide) (.inl rfl)⟩

/-- The next block's DNLOAD request hides the error of the block before. -/
theorem next_block_hides_error : ¬ ∀ (b : Board) (f : Fmc) (before after : List Poll),
    (run (loopTurn b) before (boot f)).dfu.state = .dfuError →
    (∀ p ∈ after, ¬ Requests clearing p.event) →
    Throughout (loopTurn b) (fun t => t.dfu.state = .dfuError) after
      (run (loopTurn b) before (boot f)) := by
  intro h
  have hl := throughout_last _ _ _ _
    (h perfectBoard (IdealFlash.resetFmc fun _ => 0xFF) unknownCommand
      [setupPoll ⟨0x21,dfuDnload,2,0,64⟩] (by decide +kernel) (by decide +kernel))
  exact absurd hl (by decide +kernel)

end Swindle.ErrorStates
