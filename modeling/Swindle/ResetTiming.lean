import Swindle.UsbHost

/-!
# When the bootloader resets itself

The main loop looks at the DFU state right after the poll that handled the
SETUP packet. The status stage of that packet has then only been armed, and
nothing between the poll and the reset lets the host fetch it.
-/

set_option autoImplicit false

namespace Swindle.ResetTiming
open Swindle.WordMemory Swindle.FlashController Swindle.DfuHandlers Swindle.UsbDriver
open Swindle.StageTwo Swindle.UsbHost Swindle.MachineRuns

def ResetsIdle (s : Stage2) : Prop := s.reset = true → s.usb.ctrlPhase = .ctrlIdle

/-- The two requests that make the main loop reset. -/
def AsksReset (req : SetupPacket) : Prop :=
  requestType req = 0x20 ∧
    (req.bRequest = dfuDetach ∨ req.bRequest = dfuDnload ∧ req.wLength = 0)

def ResetAsked (e : Event) (s : Stage2) : Prop :=
  match e with
  | .setup req => s.reset = false ∧ AsksReset req
  | _ => False

theorem getstatus_resets (st : DfuState) (h : ¬ Resets st) : ¬ Resets (getstatusState st) := by
  cases st <;> first | decide | exact absurd (by decide) h

theorem request_resets (req : SetupPacket) (d : Dfu) (h : ¬ Resets d.state) :
    Resets (dfuHandleRequest req d).dfu.state ↔
      req.bRequest = dfuDetach ∨ req.bRequest = dfuDnload ∧ req.wLength = 0 := by
  by_cases h0 : req.bRequest = dfuDetach
  · rw [detach_reply req d h0]
    exact iff_of_true (by simp [Resets]) (Or.inl h0)
  · by_cases h1 : req.bRequest = dfuDnload ∧ req.wLength = 0
    · rw [manifest_reply req d h1.1 h1.2]
      exact iff_of_true (by simp [Resets]) (Or.inr h1)
    · apply iff_of_false _ (fun hc => hc.elim h0 h1)
      rw [request_dfu]
      cases hst : stateSet req with
      | some st =>
        rcases stateSet_cases req hst with ⟨-,hc⟩ | ⟨-,hc⟩ | ⟨rfl,-⟩ | ⟨rfl,-⟩ | ⟨rfl,-⟩
        · exact absurd hc h0
        · exact absurd hc h1
        · exact (by decide : ¬ Resets .dfuDnloadSync)
        · exact (by decide : ¬ Resets .dfuUploadIdle)
        · exact (by decide : ¬ Resets .dfuIdle)
      | none =>
        simp only
        split_ifs
        · exact getstatus_resets d.state h
        · exact h

theorem route_resets (req : SetupPacket) (d : Dfu) (h : ¬ Resets d.state) :
    Resets (routeDfu req d).state ↔ AsksReset req := by
  unfold routeDfu AsksReset
  split_ifs with ht
  · rw [request_resets req d h]
    exact (and_iff_right ht).symm
  · exact iff_of_false h (fun hc => ht hc.1)

/-- No other event than those two requests makes the main loop reset. -/
theorem turn_resets (b : Board) (e : Event) (s : Stage2) (hs : Settled s) (hr : s.reset = false) :
    (turn b e s).reset = true ↔ ResetAsked e s := by
  have hn := hs hr
  have hset : (turn b e s).reset = true ↔ Resets (onEvent b e s).dfu.state := by
    rw [turn_live b e s hr, afterPoll_eq]
    simp only [event_reset, hr]
    split_ifs with h <;> simp [h]
  rw [hset, event_dfu]
  cases e with
  | setup req => exact (route_resets req s.dfu hn).trans (and_iff_right hr).symm
  | out l buf =>
    refine iff_of_false ?_ id
    simp only [dataCall, handleData]
    split_ifs
    · rcases data_state b.hw (rxSource b (takePacket l buf s.usb))
        (takePacket l buf s.usb).dfuRxOffset s.dfu s.fmc with hq | hq <;> rw [hq]
      · exact hn
      · exact not_resets_error
    · exact hn
  | inDone => exact iff_of_false hn id
  | busReset => exact iff_of_false hn id
  | quiet => exact iff_of_false hn id

theorem turn_idle (b : Board) (e : Event) (s : Stage2) (hs : Settled s) (hi : ResetsIdle s) :
    ResetsIdle (turn b e s) ↔ ¬ ResetAsked e s := by
  cases hr : s.reset with
  | true =>
    rw [turn_reset b e s hr]
    refine iff_of_true hi (fun ha => ?_)
    cases e with
    | setup req => exact absurd (hr.symm.trans ha.1) (by decide)
    | _ => exact ha
  | false =>
    have hset := turn_resets b e s hs hr
    constructor
    · intro hidle ha
      have hp := hidle (hset.mpr ha)
      rw [turn_usb b e s hr] at hp
      cases e with
      | setup req => exact setup_not_idle req s.usb s.dfu hp
      | _ => exact ha
    · intro hn h
      exact absurd (hset.mp h) hn

/-- Resets find the control pipe idle exactly in the runs that are never asked
to reset: whenever one is, its own transfer is cut off. -/
theorem resets_idle_iff_never_asked (b : Board) (f : Fmc) (ps : List Poll) :
    Throughout (loopTurn b) ResetsIdle ps (boot f) ↔
      Along (loopTurn b) (fun p s => ¬ ResetAsked p.event s) ps (boot f) := by
  rw [throughout_iff_along]
  refine (and_iff_right (fun h => absurd h Bool.false_ne_true)).trans ?_
  apply along_exchange _ _ _ (fun s => Settled s ∧ ResetsIdle s)
  · rintro p s ⟨hs,hi⟩
    rw [loop_event]
    exact turn_idle b p.event s hs hi
  · rintro p s hq ⟨hs,-⟩
    exact ⟨settled_loop b p s hs,hq⟩
  · exact ⟨settled_boot f,fun h => absurd h Bool.false_ne_true⟩

def manifestPolls : List Poll := [setupPoll ⟨0x21,dfuDnload,2,0,0⟩]

theorem manifest_cuts_off : ¬ ∀ (b : Board) (f : Fmc) (ps : List Poll),
    Throughout (loopTurn b) ResetsIdle ps (boot f) := by
  intro h
  have hl := throughout_last _ _ _ _
    (h perfectBoard (IdealFlash.resetFmc fun _ => 0xFF) manifestPolls)
  exact absurd (hl (by decide +kernel)) (by decide +kernel)

end Swindle.ResetTiming
