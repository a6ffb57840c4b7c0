import Swindle.ResetTiming

/-!
# The manifest states

A status request takes the state from `STATE_DFU_MANIFEST_SYNC` to
`STATE_DFU_MANIFEST`, which the main loop does not know how to leave. It never
does: the loop looks at the state after every transfer, before the host can ask.
-/

set_option autoImplicit false

namespace Swindle.ManifestStates
open Swindle.WordMemory Swindle.FlashController Swindle.DfuHandlers Swindle.UsbDriver
open Swindle.StageTwo Swindle.ResetTiming Swindle.MachineRuns

def loopStates : List DfuState :=
  [.dfuIdle,.dfuDnloadSync,.dfuDnbusy,.dfuDnloadIdle,.dfuUploadIdle,.dfuError]

def polledStates : List DfuState := .appDetach :: .dfuManifestSync :: loopStates

/-- At the head of the loop; a machine that has been reset does not get there. -/
def LoopHead (s : Stage2) : Prop := s.reset = false → s.dfu.state ∈ loopStates

/-- What one turn of a running machine does about the manifest states. -/
structure Unwedged (b : Board) (p : Poll) (s : Stage2) : Prop where
  polled : (doUsbPoll b p s).dfu.state ≠ .dfuManifest
  turned : (loopTurn b p s).dfu.state ≠ .dfuManifest
  getstatus : ∀ req, p.event = .setup req → requestType req = 0x20 →
    req.bRequest = dfuGetstatus → s.dfu.state ≠ .dfuManifestSync
  resets : ∀ req, p.event = .setup req → AsksReset req → (loopTurn b p s).reset = true

theorem loop_states_stay {st : DfuState} (h : st ∈ loopStates) : ¬ Resets st := by
  revert st
  decide

theorem getstatus_loop {st : DfuState} (h : st ∈ loopStates) : getstatusState st ∈ loopStates := by
  revert st
  decide

theorem polled_loop {st : DfuState} (h : st ∈ polledStates) (hn : ¬ Resets st) :
    st ∈ loopStates := by
  revert st
  decide

theorem loop_polled {st : DfuState} (h : st ∈ loopStates) : st ∈ polledStates :=
  List.mem_cons_of_mem _ (List.mem_cons_of_mem _ h)

theorem polled_manifest {st : DfuState} (h : st ∈ polledStates) :
    st ≠ .dfuManifest ∧ settledState st ≠ .dfuManifest := by
  revert st
  decide

theorem set_polled {req : SetupPacket} {st : DfuState} (h : stateSet req = some st) :
    st ∈ polledStates := by
  rcases stateSet_cases req h with ⟨rfl,-⟩ | ⟨rfl,-⟩ | ⟨rfl,-⟩ | ⟨rfl,-⟩ | ⟨rfl,-⟩ <;> decide

theorem route_polled (req : SetupPacket) (d : Dfu) (h : d.state ∈ loopStates) :
    (routeDfu req d).state ∈ polledStates := by
  unfold routeDfu
  split_ifs
  · rw [request_dfu]
    cases hst : stateSet req with
    | some st => exact set_polled hst
    | none =>
      simp only
      split_ifs
      · exact loop_polled (getstatus_loop h)
      · exact loop_polled h
  · exact loop_polled h

theorem data_polled (hw : Controller) (data : Source) (len : BitVec 16) (d : Dfu) (f : Fmc)
    (h : d.state ∈ loopStates) : (dfuHandleData hw data len d f).1.state ∈ polledStates := by
  rcases data_state hw data len d f with hq | hq <;> rw [hq]
  · exact loop_polled h
  · decide

/-- From a state of the loop, a poll reaches the manifest only as far as its first state. -/
theorem event_polled (b : Board) (e : Event) (s : Stage2) (h : s.dfu.state ∈ loopStates) :
    (onEvent b e s).dfu.state ∈ polledStates := by
  rw [event_dfu]
  cases e with
  | setup req => exact route_polled req s.dfu h
  | out l buf =>
    simp only
    split_ifs
    · exact data_polled b.hw _ _ _ _ h
    · exact loop_polled h
  | inDone => exact loop_polled h
  | busReset => exact loop_polled h
  | quiet => exact loop_polled h

theorem head_settled {s : Stage2} (h : LoopHead s) : Settled s := fun hr => loop_states_stay (h hr)

theorem loop_head (b : Board) (p : Poll) (s : Stage2) (h : LoopHead s) :
    LoopHead (loopTurn b p s) := by
  rw [loop_event]
  intro hrun
  cases hr : s.reset with
  | true =>
    rw [turn_reset b _ s hr] at hrun
    exact absurd (hr.symm.trans hrun) (by decide)
  | false =>
    rw [turn_live b _ s hr, afterPoll_eq] at hrun
    have hn : ¬ Resets (onEvent b p.event s).dfu.state := by
      intro hn
      simp only [if_pos hn] at hrun
      cases hrun
    rw [turn_event b _ s hr hn]
    exact polled_loop (event_polled b _ s (h hr)) hn

theorem turn_unwedged (b : Board) (p : Poll) (s : Stage2) (h : LoopHead s) (hr : s.reset = false) :
    Unwedged b p s := by
  have hp := event_polled b p.event s (h hr)
  refine ⟨?_,?_,?_,?_⟩
  · rw [poll_event]
    exact (polled_manifest hp).1
  · rw [loop_event, turn_live b _ s hr, afterPoll_eq]
    exact (polled_manifest hp).2
  · intro _ _ _ _ hs
    exact loop_states_stay (h hr) (Or.inl hs)
  · intro req he ha
    rw [loop_event, turn_resets b _ s (head_settled h) hr, he]
    exact ⟨hr,ha⟩

/-- Whatever the bus and the flash controller do, the main loop never gets stuck on
the way through the manifest states. -/
theorem loop_never_wedges (b : Board) (f : Fmc) (ps : List Poll) :
    Throughout (loopTurn b) LoopHead ps (boot f) ∧
      Along (loopTurn b) (fun p s => s.reset = false → Unwedged b p s) ps (boot f) := by
  have hall : Along (loopTurn b) (fun _ _ => True) ps (boot f) :=
    along_inputs _ (fun _ => True) ps _ (fun _ _ => trivial)
  have hboot : LoopHead (boot f) := fun _ => show DfuState.dfuIdle ∈ loopStates by decide
  constructor
  · exact throughout_invariant _ _ _ (fun p s _ => loop_head b p s) ps _ hall hboot
  · exact along_invariant _ _ LoopHead _ (fun p s _ => loop_head b p s)
      (fun p s _ => turn_unwedged b p s) ps _ hall hboot

end Swindle.ManifestStates
