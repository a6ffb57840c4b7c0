import Swindle.ErrorStates

/-!
# Status and state agree

The status is an error code exactly in the error state, because the data
handler runs in a state that a request has just set. The data stage of a
foreign request can find the error state, and then clears the status alone.
-/

set_option autoImplicit false

namespace Swindle.StatusAgreement
open Swindle.WordMemory Swindle.FlashController Swindle.DfuHandlers Swindle.UsbDriver
open Swindle.StageTwo Swindle.UsbHost Swindle.MachineRuns Swindle.DownloadGate Swindle.ErrorStates

def Agree (status : DfuStatus) (state : DfuState) : Prop := status = .ok ↔ state ≠ .dfuError

instance (status : DfuStatus) (state : DfuState) : Decidable (Agree status state) :=
  inferInstanceAs (Decidable (_ ↔ _))

/-- The two variables agree, and so does every answer to a status request. -/
structure Agrees (s : Stage2) : Prop where
  dfu : Agree s.dfu.status s.dfu.state
  report : ∀ req, requestType req = 0x20 → req.bRequest = dfuGetstatus → ∃ status state,
    Agree status state ∧ routeData req s.dfu = [status.code,10,0,0,state.code,0]

theorem getstatus_agrees {d : Dfu} (h : Agree d.status d.state) :
    Agree d.status (getstatusState d.state) :=
  h.trans (not_congr getstatus_error.symm)

theorem agree_report {s : Stage2} (h : Agree s.dfu.status s.dfu.state) : Agrees s := by
  refine ⟨h,fun req ht hr => ⟨s.dfu.status,getstatusState s.dfu.state,getstatus_agrees h,?_⟩⟩
  rw [routeData, if_neg (by rw [ht]; decide), if_pos ht, getstatus_reply req s.dfu hr]

/-- A request leaves an error with its status, or sets a state with status OK. -/
theorem request_agrees (req : SetupPacket) (d : Dfu) (h : Agree d.status d.state) :
    Agree (dfuHandleRequest req d).dfu.status (dfuHandleRequest req d).dfu.state := by
  by_cases hm : req.bRequest ∈ leaving
  · obtain ⟨hstate,hstatus⟩ := leaving_dfu req d hm
    exact iff_of_true hstatus hstate
  · rw [staying_dfu req d hm]
    split_ifs
    · exact getstatus_agrees h
    · exact h

theorem route_agrees (req : SetupPacket) (d : Dfu) (h : Agree d.status d.state) :
    Agree (routeDfu req d).status (routeDfu req d).state := by
  unfold routeDfu
  split_ifs
  · exact request_agrees req d h
  · exact h

theorem data_agrees (hw : Controller) (data : Source) (len : BitVec 16) (d : Dfu) (f : Fmc)
    (hd : d.state ≠ .dfuError) (h : Agree d.status d.state) :
    Agree (dfuHandleData hw data len d f).1.status (dfuHandleData hw data len d f).1.state := by
  rcases data_cases hw data len d f with hq | ⟨a,hq⟩ | ⟨e,hne,hq⟩
  · rw [hq]
    exact h
  · rw [hq]
    exact iff_of_true rfl hd
  · rw [hq]
    exact iff_of_false hne (fun hc => hc rfl)

theorem turn_agrees (b : Board) (e : Event) (s : Stage2) (hk : ErrorKept s)
    (hn : ¬ (Stray e s ∧ s.dfu.state = .dfuError)) (h : Agree s.dfu.status s.dfu.state) :
    Agree (turn b e s).dfu.status (turn b e s).dfu.state := by
  cases hr : s.reset with
  | true =>
    rw [turn_reset b e s hr]
    exact h
  | false =>
    have he : Agree (onEvent b e s).dfu.status (onEvent b e s).dfu.state := by
      rw [event_dfu]
      cases e with
      | setup req => exact route_agrees req s.dfu h
      | out l buf =>
        simp only []
        split_ifs with hc
        · have hne : s.dfu.state ≠ .dfuError := fun hq =>
            hn ⟨⟨hr,hc,hk.stage hq hc.1 hc.2.2⟩,hq⟩
          exact data_agrees b.hw _ _ s.dfu s.fmc hne h
        · exact h
      | inDone => exact h
      | busReset => exact h
      | quiet => exact h
    have hs : settledState (onEvent b e s).dfu.state ≠ .dfuError ↔
        (onEvent b e s).dfu.state ≠ .dfuError := by
      cases (onEvent b e s).dfu.state <;> simp [settledState]
    rw [turn_live b e s hr, afterPoll_eq]
    exact he.trans hs.symm

/-- Status and state agree in every state reached, as long as no data stage of a
foreign request ends in the error state. -/
theorem status_agrees_state (b : Board) (f : Fmc) (ps : List Poll)
    (h : Along (loopTurn b) (fun p s => ¬ (Stray p.event s ∧ s.dfu.state = .dfuError)) ps
      (boot f)) : Throughout (loopTurn b) Agrees ps (boot f) := by
  apply throughout_mono _ (fun s => ErrorKept s ∧ Agree s.dfu.status s.dfu.state) _
    (fun s hs => agree_report hs.2)
  apply throughout_invariant _ _ _ _ ps _ h ⟨error_boot f,iff_of_true rfl (by simp [boot, Dfu.init])⟩
  rintro p s hn ⟨hk,ha⟩
  rw [loop_event]
  exact ⟨turn_kept b p.event s hk (fun he hs => hn ⟨hs,he⟩),turn_agrees b p.event s hk hn ha⟩

/-- An unknown command behind a bus reset, and the request that asks about it. -/
theorem unknown_command_agrees :
    Throughout (loopTurn perfectBoard) Agrees (busResetPoll :: (unknownCommand ++ statusPolls))
      (perfectBoot fun _ => 0xFF) :=
  status_agrees_state perfectBoard _ _ (by decide +kernel)

/-- A foreign SET_ADDRESS after an error: status OK in the error state. -/
theorem foreign_command_clears_status : ¬ ∀ (b : Board) (f : Fmc) (ps : List Poll),
    Throughout (loopTurn b) Agrees ps (boot f) := by
  intro h
  have hl := (throughout_last _ _ _ _ (h perfectBoard (IdealFlash.resetFmc fun _ => 0xFF)
    (unknownCommand ++ strayCommand))).dfu
  exact absurd hl (by decide +kernel)

end Swindle.StatusAgreement
