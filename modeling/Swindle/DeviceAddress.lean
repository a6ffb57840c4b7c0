import Swindle.UsbHost

/-!
# The device address

What DEV_ADDR should hold is what the bus has seen: the address of the last
standard SET_ADDRESS request whose status stage was over since the last bus
reset. The driver applies its deferred address to any completion numbered like
that request, and the deferred address outlives bus resets. When the request
comes with a data stage the driver applies no address at all.
-/

set_option autoImplicit false

namespace Swindle.DeviceAddress
open Swindle.WordMemory Swindle.DfuHandlers Swindle.UsbDescriptors Swindle.UsbDriver
open Swindle.StageTwo Swindle.UsbHost Swindle.MachineRuns

def IsSetAddress (req : SetupPacket) : Prop :=
  requestType req = 0x00 ∧ req.bRequest = usbReqSetAddress

instance (req : SetupPacket) : Decidable (IsSetAddress req) :=
  inferInstanceAs (Decidable (_ ∧ _))

def low7 (wValue : BitVec 16) : Byte := (wValue &&& 0x7F).setWidth 8

/-- How far a control transfer is on the bus: in the status stage of a request
without data, in a data stage to the device, in the status stage behind it, or
in a data stage to the host, which an empty OUT packet ends. -/
inductive Stage where
  | status
  | dataOut (left : ℕ)
  | dataDone
  | dataIn
  deriving DecidableEq, Repr

def firstStage (req : SetupPacket) : Stage :=
  if req.wLength = 0 then .status
  else if req.bmRequestType &&& usbDirIn ≠ 0 then .dataIn
  else .dataOut req.wLength.toNat

/-- The stage after an event, or none once the status stage is over. -/
def nextStage : Event → Stage → Option Stage
  | .inDone, .status => none
  | .inDone, .dataDone => none
  | .out l _, .dataOut left =>
      some (if l < ep0MaxPacket ∨ left ≤ l.toNat then .dataDone else .dataOut (left - l.toNat))
  | .out l _, .dataIn => if l = 0 then none else some .dataIn
  | _, g => some g

/-- The SET_ADDRESS request under way with its address, and the address assigned
since the last bus reset. -/
structure Assigned where
  pending : Option (Byte × Stage)
  address : Byte
  deriving DecidableEq, Repr

def Assigned.move (e : Event) (w : Assigned) : Assigned :=
  match w.pending with
  | none => w
  | some (a,g) =>
    match nextStage e g with
    | none => ⟨none,a⟩
    | some g' => ⟨some (a,g'),w.address⟩

/-- A machine that has been reset takes part in the bus no more. -/
def watchAddress (e : Event) (s : Stage2) (w : Assigned) : Assigned :=
  if s.reset then w else
  match e with
  | .setup req =>
    { w with pending := if IsSetAddress req then some (low7 req.wValue,firstStage req) else none }
  | .busReset => ⟨none,0⟩
  | e => w.move e

def watchedLoop (b : Board) : Poll → Stage2 × Assigned → Stage2 × Assigned :=
  watched (loopTurn b) fun p => watchAddress p.event

/-- A completion that applies the deferred address for another kind of request. -/
def Misapplies (e : Event) (s : Stage2) : Prop :=
  e = .inDone ∧ s.reset = false ∧ Completes s.usb ∧ s.usb.ctrlRequest = usbReqSetAddress ∧
    s.usb.ctrlReqType &&& 0x60 ≠ 0 ∧ s.usb.usbDevAddr ≠ s.usb.devAddr

/-- The end of a SET_ADDRESS request with a data stage that names a new address. -/
def Forgets (e : Event) (s : Stage2) (w : Assigned) : Prop :=
  match w.pending with
  | none => False
  | some (a,g) => s.reset = false ∧ g ≠ .status ∧ nextStage e g = none ∧ s.usb.devAddr ≠ a

def Stuck (u : Usb) : Prop :=
  u.ctrlPhase ≠ .ctrlStatus ∧ (u.ctrlPhase = .ctrlDataIn → u.ctrlDataRemaining = 0)

/-- The driver is about to apply an address exactly when a SET_ADDRESS request
without data waits for its status stage: other standard requests numbered like
it stay stuck. -/
def Awaits (u : Usb) : Option (Byte × Stage) → Prop
  | none => u.ctrlRequest = usbReqSetAddress → u.ctrlReqType &&& 0x60 = 0 → Stuck u
  | some (a,g) => u.ctrlRequest = usbReqSetAddress ∧ u.ctrlReqType &&& 0x60 = 0 ∧
      if g = .status then u.ctrlPhase = .ctrlStatus ∧ u.usbDevAddr = a else Stuck u

section Stuck
variable {u : Usb}

theorem idle_stuck (h : u.ctrlPhase = .ctrlIdle) : Stuck u := by
  simp [Stuck, h]

theorem stuck_in (h : Stuck u) : onIn u = u := by
  obtain ⟨hs,hd⟩ := h
  cases hc : u.ctrlPhase with
  | ctrlDataIn => simp [onIn, hc, hd hc]
  | ctrlStatus => exact absurd hc hs
  | ctrlIdle => simp [onIn, hc]
  | ctrlDataOut => simp [onIn, hc]

theorem stuck_out (l : BitVec 16) (buf : ℕ → Byte) (h : Stuck u) : Stuck (outUsb l buf u) := by
  by_cases hc : u.ctrlPhase = .ctrlDataOut
  · simp only [Stuck, outUsb, hc, if_true]
    split_ifs <;> simp [ep0Send, ep0Recv, hc]
  · rw [outUsb, if_neg hc]
    exact h

theorem stuck_completes (h : Stuck u) : ¬ Completes u := by
  rintro (hp | ⟨hp,h0,-⟩)
  · exact h.1 hp
  · rw [h.2 hp] at h0
    exact absurd h0 (by decide)

end Stuck

/-- SET_ADDRESS has no answer, so with a data stage its completions apply nothing. -/
theorem set_address_stuck (req : SetupPacket) (u : Usb) (d : Dfu) (h : IsSetAddress req)
    (hl : req.wLength ≠ 0) : Stuck (onSetup req u d).1 := by
  have hd : routeData req d = [] := by simp [routeData, handleStdRequest, h.1, h.2]
  refine ⟨?_,fun hp => ?_⟩
  · rw [setup_phase, if_neg hl]
    split_ifs <;> decide
  · have hc := setup_dataIn_counter req u d hp
    rw [hd] at hc
    exact BitVec.le_zero_iff.mp hc

theorem setup_awaits (req : SetupPacket) (u : Usb) (d : Dfu) : Awaits (onSetup req u d).1
    (if IsSetAddress req then some (low7 req.wValue,firstStage req) else none) := by
  by_cases h : IsSetAddress req
  · rw [if_pos h]
    refine ⟨(setup_request req u d).trans h.2,?_,?_⟩
    · rw [setup_reqType]
      exact h.1
    by_cases hl : req.wLength = 0
    · have hd : routeData req d = [] := by simp [routeData, handleStdRequest, h.1, h.2]
      rw [firstStage, if_pos hl, if_pos rfl]
      refine ⟨?_,?_⟩
      · rw [setup_phase, if_pos hl, hd]
        rfl
      · rw [setup_usbDevAddr]
        simp [routeAddr, handleStdRequest, h.1, h.2, low7]
    · have hg : firstStage req ≠ .status := by
        rw [firstStage, if_neg hl]
        split_ifs <;> simp
      rw [if_neg hg]
      exact set_address_stuck req u d h hl
  · rw [if_neg h]
    intro hr ht
    rw [setup_request] at hr
    rw [setup_reqType] at ht
    exact absurd ⟨ht,hr⟩ h

theorem awaits_stuck {u : Usb} {a : Byte} {g : Stage} (h : Awaits u (some (a,g)))
    (hg : g ≠ .status) : Stuck u := by
  have hs := h.2.2
  rwa [if_neg hg] at hs

theorem stuck_awaits {u v : Usb} {a : Byte} {g g' : Stage} (h : Awaits u (some (a,g)))
    (hr : v.ctrlRequest = u.ctrlRequest) (ht : v.ctrlReqType = u.ctrlReqType) (hv : Stuck v)
    (hg : g' ≠ .status) : Awaits v (some (a,g')) := by
  refine ⟨hr.trans h.1,ht ▸ h.2.1,?_⟩
  rw [if_neg hg]
  exact hv

theorem next_not_status {e : Event} {g g' : Stage} (h : nextStage e g = some g')
    (hg : g ≠ .status) : g' ≠ .status := by
  unfold nextStage at h
  split at h
  · cases h
  · cases h
  · cases h
    split_ifs <;> simp
  · split_ifs at h
    cases h
    simp
  · cases h
    exact hg

/-- A request with a data stage stays stuck in all its stages, and behind them. -/
theorem move_stuck {u v : Usb} {w : Assigned} {a : Byte} {g : Stage} (e : Event)
    (hw : w.pending = some (a,g)) (h : Awaits u (some (a,g))) (hg : g ≠ .status)
    (hr : v.ctrlRequest = u.ctrlRequest) (ht : v.ctrlReqType = u.ctrlReqType) (hv : Stuck v) :
    Awaits v (w.move e).pending := by
  simp only [Assigned.move, hw]
  cases hn : nextStage e g with
  | none => exact fun _ _ => hv
  | some g' => exact stuck_awaits h hr ht hv (next_not_status hn hg)

/-- A completion ends the wait; without a wait it applies nothing for a
standard request. -/
theorem in_awaits (u : Usb) (w : Assigned) (h : Awaits u w.pending) :
    Awaits (onIn u) (w.move .inDone).pending := by
  cases hw : w.pending with
  | none =>
    rw [hw] at h
    simp only [Assigned.move, hw]
    intro hr ht
    rw [in_request] at hr
    rw [in_reqType] at ht
    rw [stuck_in (h hr ht)]
    exact h hr ht
  | some p =>
    obtain ⟨a,g⟩ := p
    rw [hw] at h
    by_cases hg : g = .status
    · subst hg
      simp only [Assigned.move, hw, nextStage]
      intro hr _
      rw [in_request] at hr
      obtain ⟨-,-,hp,-⟩ := h
      exact idle_stuck (by simp [onIn, hp, applyAddress, hr])
    · have hs := awaits_stuck h hg
      rw [stuck_in hs]
      exact move_stuck .inDone hw h hg rfl rfl hs

theorem out_awaits (l : BitVec 16) (buf : ℕ → Byte) (u : Usb) (w : Assigned)
    (h : Awaits u w.pending) : Awaits (outUsb l buf u) (w.move (.out l buf)).pending := by
  cases hw : w.pending with
  | none =>
    rw [hw] at h
    simp only [Assigned.move, hw]
    intro hr ht
    rw [out_request] at hr
    rw [out_reqType] at ht
    exact stuck_out l buf (h hr ht)
  | some p =>
    obtain ⟨a,g⟩ := p
    rw [hw] at h
    by_cases hg : g = .status
    · subst hg
      have hp : u.ctrlPhase = .ctrlStatus := h.2.2.1
      simp only [Assigned.move, hw, nextStage]
      rw [outUsb, if_neg (by rw [hp]; decide)]
      exact h
    · exact move_stuck _ hw h hg (out_request _ _ _) (out_reqType _ _ _)
        (stuck_out l buf (awaits_stuck h hg))

theorem move_quiet (w : Assigned) : w.move .quiet = w := by
  obtain ⟨p,a⟩ := w
  cases p with
  | none => rfl
  | some p => rfl

theorem turn_awaits (b : Board) (e : Event) (s : Stage2) (w : Assigned)
    (h : Awaits s.usb w.pending) :
    Awaits (turn b e s).usb (watchAddress e s w).pending := by
  cases hr : s.reset with
  | true =>
    simp only [turn_reset b e s hr, watchAddress, hr, if_true]
    exact h
  | false =>
    rw [turn_usb b e s hr]
    simp only [watchAddress, hr, Bool.false_eq_true, if_false]
    cases e with
    | setup req => exact setup_awaits req s.usb s.dfu
    | inDone => exact in_awaits s.usb w h
    | out l buf => exact out_awaits l buf s.usb w h
    | busReset => exact fun _ _ => idle_stuck rfl
    | quiet =>
      simp only [move_quiet]
      exact h

/-- While the register stays as it is, it follows the bus unless the event ends a request
that is forgotten. -/
theorem held_address (e : Event) (s : Stage2) (w : Assigned) (hr : s.reset = false)
    (he : ∀ a, w.pending = some (a,.status) → nextStage e .status = some .status)
    (ha : s.usb.devAddr = w.address) :
    s.usb.devAddr = (w.move e).address ↔ ¬ Forgets e s w := by
  cases hw : w.pending with
  | none => simp [Forgets, Assigned.move, hw, ha]
  | some p =>
    obtain ⟨a,g⟩ := p
    cases hn : nextStage e g with
    | some g' => simp [Forgets, Assigned.move, hw, hn, ha]
    | none =>
      have hg : g ≠ .status := fun hg => by
        subst hg
        rw [he a hw] at hn
        cases hn
      simp [Forgets, Assigned.move, hw, hn, hg, hr]

/-- A completion follows the bus unless it is misapplied or ends a forgotten request. -/
theorem in_address (s : Stage2) (w : Assigned) (hr : s.reset = false)
    (h : Awaits s.usb w.pending) (ha : s.usb.devAddr = w.address) :
    (onIn s.usb).devAddr = (w.move .inDone).address ↔
      ¬ Misapplies .inDone s ∧ ¬ Forgets .inDone s w := by
  simp only [Misapplies, hr, true_and]
  cases hw : w.pending with
  | none =>
    rw [hw] at h
    simp only [Forgets, Assigned.move, hw, not_false_iff, and_true, in_devAddr, ← ha]
    by_cases hc : Completes s.usb ∧ s.usb.ctrlRequest = usbReqSetAddress
    · have ht : s.usb.ctrlReqType &&& 0x60 ≠ 0 := fun ht => stuck_completes (h hc.2 ht) hc.1
      rw [if_pos hc]
      constructor
      · rintro hd ⟨-,-,-,hne⟩
        exact hne hd
      · intro hm
        by_contra hne
        exact hm ⟨hc.1,hc.2,ht,hne⟩
    · rw [if_neg hc]
      exact iff_of_true rfl (fun hm => hc ⟨hm.1,hm.2.1⟩)
  | some p =>
    obtain ⟨a,g⟩ := p
    rw [hw] at h
    rw [and_iff_right (fun hm => hm.2.2.1 h.2.1)]
    by_cases hg : g = .status
    · subst hg
      obtain ⟨hq,-,hp,hd⟩ := h
      simp only [Forgets, Assigned.move, hw, nextStage, in_devAddr, hd]
      rw [if_pos ⟨Or.inl hp,hq⟩]
      simp
    · rw [stuck_in (awaits_stuck h hg)]
      refine held_address .inDone s w hr (fun a' ha' => ?_) ha
      rw [hw] at ha'
      cases ha'
      exact absurd rfl hg

theorem other_forgets (e : Event) (s : Stage2) (w : Assigned) (he : ∀ g, nextStage e g = some g) :
    ¬ Forgets e s w := by
  cases hw : w.pending with
  | none => simp [Forgets, hw]
  | some p => simp [Forgets, hw, he]

theorem turn_address (b : Board) (e : Event) (s : Stage2) (w : Assigned)
    (h : Awaits s.usb w.pending) (ha : s.usb.devAddr = w.address) :
    (turn b e s).usb.devAddr = (watchAddress e s w).address ↔
      ¬ Misapplies e s ∧ ¬ Forgets e s w := by
  cases hr : s.reset with
  | true =>
    have hf : ¬ Forgets e s w := by
      simp only [Forgets, hr]
      split <;> simp
    simp [turn_reset b e s hr, watchAddress, hr, ha, Misapplies, hf]
  | false =>
    rw [turn_usb b e s hr]
    simp only [watchAddress, hr, Bool.false_eq_true, if_false]
    cases e with
    | setup req =>
      have hf := other_forgets (.setup req) s w (fun _ => rfl)
      simp [ha, Misapplies, hf]
    | out l buf =>
      rw [out_devAddr, held_address (.out l buf) s w hr (fun _ _ => rfl) ha]
      simp [Misapplies]
    | busReset =>
      have hf := other_forgets .busReset s w (fun _ => rfl)
      simp [onBusReset, Misapplies, hf]
    | quiet =>
      have hf := other_forgets .quiet s w (fun _ => rfl)
      simp [move_quiet, ha, Misapplies, hf]
    | inDone => exact in_address s w hr h ha

/-- DEV_ADDR is the address the bus has assigned, throughout a run, exactly
when no completion of a class or vendor request numbered like SET_ADDRESS finds
a different deferred address left over, and no SET_ADDRESS request with a data
stage ends and names another address. -/
theorem dev_addr_tracks_bus (b : Board) (f : FlashController.Fmc) (ps : List Poll) :
    Throughout (watchedLoop b) (fun q => q.1.usb.devAddr = q.2.address) ps (boot f,⟨none,0⟩) ↔
      Along (watchedLoop b) (fun p q => ¬ Misapplies p.event q.1 ∧ ¬ Forgets p.event q.1 q.2) ps
        (boot f,⟨none,0⟩) := by
  have keep : ∀ (p : Poll) (q : Stage2 × Assigned), Awaits q.1.usb q.2.pending →
      Awaits (watchedLoop b p q).1.usb (watchedLoop b p q).2.pending := by
    intro p q hq
    simp only [watchedLoop, watched, loop_event]
    exact turn_awaits b p.event q.1 q.2 hq
  rw [throughout_iff_along]
  refine (and_iff_right rfl).trans ?_
  apply along_exchange _ _ _ (fun q => Awaits q.1.usb q.2.pending ∧ q.1.usb.devAddr = q.2.address)
  · rintro p q ⟨hw,ha⟩
    simp only [watchedLoop, watched, loop_event]
    exact turn_address b p.event q.1 q.2 hw ha
  · rintro p q hd ⟨hw,-⟩
    exact ⟨keep p q hw,hd⟩
  · exact ⟨fun _ _ => idle_stuck rfl,rfl⟩

def staleAddress : List Poll :=
  [setupPoll ⟨0x00,usbReqSetAddress,5,0,0⟩,inPoll,busResetPoll,
    setupPoll ⟨0xA1,dfuGetstate,0,0,1⟩,inPoll]

theorem stale_address_returns : ¬ ∀ (b : Board) (f : FlashController.Fmc) (ps : List Poll),
    Throughout (watchedLoop b) (fun q => q.1.usb.devAddr = q.2.address) ps (boot f,⟨none,0⟩) := by
  intro h
  have hl := throughout_last _ _ _ _
    (h perfectBoard (IdealFlash.resetFmc fun _ => 0xFF) staleAddress)
  exact absurd hl (by decide +kernel)

end Swindle.DeviceAddress
