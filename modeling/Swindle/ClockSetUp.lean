import Swindle.ClockSafety

/-!
# Setting up the clocks and taking them back

Stage one sets up the PLL and, before it starts the application, goes back to the
internal oscillator. Going back is safe from anywhere, because it waits for the
hardware to show the source that it has asked for. Setting up waits for the bits that
it has written itself, and is safe exactly if the internal oscillator drives and
nothing else can come to drive.
-/

set_option autoImplicit false

namespace Swindle.ClockSetUp
open Swindle.WordMemory Swindle.MachineRuns Swindle.KnownBits Swindle.Interference Swindle.ClockTree
  Swindle.ClockFacts Swindle.ClockSafety

/-- In every order of the code's turns and the hardware's events the processor has a clock
and `E` holds, at the end `Q` holds too, and the end is reached if everything
happens often enough. -/
def Clocked (E Q : Clocks → Prop) (ks : List Instr) (s : Clocks) : Prop :=
  (∀ ts, Throughout clockTurn (fun c => (c.2.Driven ∧ E c.2) ∧ (c.1 = [] → Q c.2)) ts (ks,s)) ∧
    ∀ stretches : List (List (Turn Event)), (∀ ts ∈ stretches, Fair ts) →
      ks.length ≤ stretches.length → (run clockTurn stretches.flatten (ks,s)).1 = []

theorem checked_clocked (ok : Facts → Bool) {E Q : Clocks → Prop}
    (hok : ∀ f s, ok f = true → f.Of s → E s) (ks : List Instr) (f : Facts)
    (h : check ok ks f.settle = true) (hq : ∀ s, Holds (final ks f.settle) s → Q s) (s : Clocks)
    (hd : s.Driven) (hf : f.Of s) : Clocked E Q ks s := by
  have houtline := check_outline ok E hok ks f h
  have hs : Holds f.settle s := ⟨hd,Facts.settle_cell_of hf⟩
  refine ⟨fun ts => ?_,fun stretches hfair hlen => outline_finishes houtline s hs stretches hfair hlen⟩
  exact throughout_mono clockTurn _ _ (fun c hc => ⟨hc.1,fun hend => hq c.2 (hc.2 hend)⟩) ts _
    (outline_throughout houtline s hs ts)

/-! ## Where the code leads -/

/-- The PLL runs on the crystal, eighteen times as fast, with a third of it for USB. -/
structure PllSetUp (s : Clocks) : Prop where
  runs : s.runs .pll = true
  input : s.input = .hse
  cfg0 : s.cell .cfg0 &&& ~~~cfg0SysclockStatus =
    cfg0SysclockPll ||| cfg0Pllsel ||| cfg0Pllmul 15 ||| cfg0Usbpsc 2
  ws : s.cell .ws = wsLatency2
  core : s.cell .systemCoreClock = 144000000

/-- The internal oscillator drives the processor, nothing is divided, and crystal, clock
security, bypass and PLL are off. -/
structure Reverted (s : Clocks) : Prop where
  runs : s.runs .hsi = true
  cfg0 : s.cell .cfg0 = 0
  off : s.cell .ctl &&& 0x010D0000 = 0

structure AfterReset (s : Clocks) : Prop where
  ctl : s.cell .ctl &&& (ctlIrc8men ||| ctlIrc8mstb) = ctlIrc8men ||| ctlIrc8mstb
  cfg0 : s.cell .cfg0 = 0

def unknown : Facts := ⟨.nothing,.nothing,.nothing,.nothing,.nothing,.ctl,0⟩

def resetFacts : Facts :=
  { unknown with
    ctl := Known.nothing.masked (ctlIrc8men ||| ctlIrc8mstb) (ctlIrc8men ||| ctlIrc8mstb)
    cfg0 := .exactly 0 }

theorem unknown_of (s : Clocks) : unknown.Of s := by
  refine ⟨fun c => ?_,Known.of_nothing _,fun i hi => by simp [unknown] at hi⟩
  cases c <;> exact Known.of_nothing _

theorem facts_of {s : Clocks} {ctl cfg0 : Known 32} (hctl : ctl.Of (s.cell .ctl))
    (hcfg0 : cfg0.Of (s.cell .cfg0)) : Facts.Of { unknown with ctl := ctl, cfg0 := cfg0 } s := by
  refine ⟨fun c => ?_,Known.of_nothing _,fun i hi => by simp [unknown] at hi⟩
  cases c <;> first | exact hctl | exact hcfg0 | exact Known.of_nothing _

theorem reset_of {s : Clocks} (h : AfterReset s) : resetFacts.Of s := by
  refine facts_of ((Known.of_nothing _).masked _ _ h.ctl) ?_
  rw [h.cfg0]
  exact Known.of_exactly 0

theorem reset_driven {s : Clocks} (h : AfterReset s) : s.Driven :=
  Facts.driven_of (reset_of h) (by decide +kernel)

theorem pll_of {f : Facts} {s : Clocks} (h : f.Of s) (hruns : f.runs .pll = true)
    (hin : f.input = some .hse)
    (hcfg0 : f.cfg0.implies (~~~cfg0SysclockStatus)
      (cfg0SysclockPll ||| cfg0Pllsel ||| cfg0Pllmul 15 ||| cfg0Usbpsc 2) = true)
    (hws : f.ws.implies (BitVec.allOnes 32) wsLatency2 = true)
    (hcore : f.core.implies (BitVec.allOnes 32) 144000000 = true) :
    PllSetUp s :=
  ⟨Facts.runs_of h hruns,Facts.input_of h hin,(h.cell .cfg0).implied _ _ hcfg0,
    (h.cell .ws).pinned _ hws,(h.cell .systemCoreClock).pinned _ hcore⟩

theorem reverted_of {f : Facts} {s : Clocks} (h : f.Of s) (hruns : f.runs .hsi = true)
    (hcfg0 : f.cfg0.implies (BitVec.allOnes 32) 0 = true) (hoff : f.ctl.implies 0x010D0000 0 = true) :
    Reverted s :=
  ⟨Facts.runs_of h hruns,(h.cell .cfg0).pinned _ hcfg0,(h.cell .ctl).implied _ _ hoff⟩

/-- From a reset on the processor always has a clock, and the flash always has its wait
states before the PLL can drive: on the way to stage two, which finds the PLL as it
needs it, and on the way to the application, which finds what a reset leaves. -/
theorem stage1_clocked (s : Clocks) (h : AfterReset s) (toApplication : Bool) :
    Clocked Clocks.Waits (if toApplication then Reverted else PllSetUp) (stage1Clocks toApplication)
      s := by
  refine checked_clocked Facts.waits (fun f s hok hf => Facts.waits_of hf hok) _ resetFacts ?_ ?_ s
    (reset_driven h) (reset_of h)
  · cases toApplication <;> decide +kernel
  · intro s' hs'
    cases toApplication with
    | true =>
      exact reverted_of hs'.2 (by decide +kernel) (by decide +kernel) (by decide +kernel)
    | false =>
      exact pll_of hs'.2 (by decide +kernel) (by decide +kernel) (by decide +kernel)
        (by decide +kernel) (by decide +kernel)

def afterReset : Clocks := ⟨fun c => if c = .ctl then 0x00000083 else 0,0⟩

theorem after_reset_clocked :
    Clocked Clocks.Waits (if true then Reverted else PllSetUp) (stage1Clocks true) afterReset :=
  stage1_clocked afterReset ⟨by decide,by decide⟩ true

/-- Whatever drives the processor, in whatever state the other sources are: going back to
the internal oscillator never stops the source that is in use. -/
theorem revert_from_anywhere (s : Clocks) (h : s.Driven) :
    Clocked (fun _ => True) Reverted revertClockToHsi s :=
  checked_clocked (fun _ => true) (fun _ _ _ _ => trivial) _ unknown (by decide +kernel)
    (fun s' hs' => reverted_of hs'.2 (by decide +kernel) (by decide +kernel) (by decide +kernel)) s h
    (unknown_of s)

def onPll : Clocks := ⟨fun c => if c = .ctl then 0x03030083 else if c = .cfg0 then 0x00BD000A else 0,0⟩

theorem pll_reverted : Clocked (fun _ => True) Reverted revertClockToHsi onPll :=
  revert_from_anywhere onPll ⟨.pll,by decide,by decide⟩

/-! ## When setting up is safe -/

def canRun (s : Clocks) (d : Source) : Bool := s.on d && (d != .pll || s.on s.input)

/-- The internal oscillator drives the processor, and no other source that is selected
can come to run. -/
structure AtHsi (s : Clocks) : Prop where
  drives : s.Drives .hsi
  stays : ∀ d, s.Selects d → d = .hsi ∨ canRun s d = false

/-! ### A turn of the code without events -/

def goes (f : Facts) : Instr → Bool
  | .awaitSome c m => decide ((f.cell c).ones &&& m ≠ 0)
  | .awaitEqual c m v => (f.cell c).implies m v
  | _ => true

def straight : List Instr → Facts → Option Facts
  | [], f => some f
  | k::ks, f => if goes f k then straight ks (Facts.after k f) else none

theorem goes_exec {f : Facts} {k : Instr} {s : Clocks} (h : f.Of s) (hk : goes f k = true) :
    ∃ s', exec k s = some s' := by
  cases k with
  | awaitSome c m =>
    refine ⟨s,if_neg fun hzero => of_decide_eq_true hk ?_⟩
    apply BitVec.eq_of_getLsbD_eq
    intro i hi
    have hbit := congrArg (BitVec.getLsbD · i) hzero
    have hone := (h.cell c i).1
    simp only [BitVec.getLsbD_and] at hbit ⊢
    grind
  | awaitEqual c m v => exact ⟨s,if_pos ((h.cell c).implied m v hk)⟩
  | load c => exact ⟨_,rfl⟩
  | and m => exact ⟨_,rfl⟩
  | or v => exact ⟨_,rfl⟩
  | store c => exact ⟨_,rfl⟩
  | put c v => exact ⟨_,rfl⟩

theorem straight_run (ks ls : List Instr) (f g : Facts) (h : straight ks f = some g) (s : Clocks)
    (hs : f.Of s) : ∃ s', run clockTurn (List.replicate ks.length .program) (ks++ls,s) = (ls,s') ∧
      g.Of s' ∧ s'.cell .cfg0 &&& cfg0SysclockStatus = s.cell .cfg0 &&& cfg0SysclockStatus := by
  induction ks generalizing f s with
  | nil =>
    cases h
    exact ⟨s,rfl,hs,rfl⟩
  | cons k ks ih =>
    rw [straight] at h
    split at h
    · next hk =>
      obtain ⟨t,ht⟩ := goes_exec hs hk
      obtain ⟨s',hrun,hg,hstatus⟩ := ih _ h t (Facts.after_of hs ht)
      refine ⟨s',?_,hg,hstatus.trans (exec_status ht .cfg0)⟩
      rw [← hrun, List.length_cons, List.replicate_succ, run, List.cons_append]
      simp only [clockTurn, turn, ht]
    · cases h

/-! ### How the clock is lost -/

/-- `lnInitSystemClock` up to its first wait, and from there to where crystal and PLL are off. -/
def turnOn : List Instr := orCell .ctl ctlIrc8men

def turnOff : List Instr :=
  waitControlBit ctlIrc8mstb ++
  [.load .cfg0, .and (~~~cfg0SysclockMask), .store .cfg0,
    .awaitEqual .cfg0 cfg0SysclockMask cfg0SysclockIrc8] ++
  andCell .ctl (~~~ctlHxtalen) ++ andCell .ctl (~~~ctlPllen)

theorem init_begins : lnInitSystemClock = turnOn ++ (turnOff ++ lnInitSystemClock.drop 14) := rfl

def turnedOn : Facts := (straight turnOn unknown).getD unknown

def irc8Settled : Facts := turnedOn.learn .ctl (turnedOn.ctl.or ctlIrc8mstb)

def turnedOff : Facts := (straight turnOff irc8Settled).getD unknown

theorem settled_known {s : Clocks} (h : turnedOn.Of s) :
    irc8Settled.Of (hardware (.settled .hsi) s) := by
  have hon : s.powered .hsi = true := by
    rw [Clocks.powered, Facts.on_of h rfl]
    rfl
  have hor := (h.cell .ctl).or ctlIrc8mstb
  rw [hardware, if_pos hon]
  apply Facts.learned
  · apply Facts.display_of h
    · intro i
      have hi := hor i
      refine ⟨fun hone => hi.1 ?_,fun hzero => ?_⟩
      · rw [Known.or, BitVec.getLsbD_or, Bool.or_eq_true]
        exact Or.inl hone
      · rw [show (turnedOn.cell .ctl).zeros = 0 from rfl] at hzero
        simp at hzero
    · intro i hi
      have hne := Facts.status_enabled .hsi i hi
      simp only [BitVec.getLsbD_or, BitVec.getLsbD_twoPow]
      grind
  · exact hor

theorem off_not_driven {s : Clocks} {d : Source} (hdrives : s.Drives d) (hoff : s.on d = false) :
    ¬ s.Driven := by
  rintro ⟨e,he,hruns⟩
  cases drives_unique hdrives he
  simp [Clocks.runs, Clocks.powered, hoff] at hruns

/-- A source that drives the processor is turned off, unless it is the internal oscillator. -/
theorem init_loses (s : Clocks) (d : Source) (hd : d ≠ .hsi) (h : s.Drives d) :
    ∃ ts, ¬ (run clockTurn ts (lnInitSystemClock,s)).2.Driven := by
  obtain ⟨s1,hrun1,hof1,hstatus1⟩ := straight_run turnOn (turnOff ++ lnInitSystemClock.drop 14)
    unknown turnedOn rfl s (unknown_of s)
  have hof2 := settled_known hof1
  obtain ⟨s3,hrun3,hof3,hstatus3⟩ := straight_run turnOff (lnInitSystemClock.drop 14) irc8Settled
    turnedOff rfl _ hof2
  have hkept : (hardware (.settled .hsi) s1).cell .cfg0 = s1.cell .cfg0 := by
    rw [hardware]
    split <;> rfl
  refine ⟨List.replicate turnOn.length .program ++
    (.event (.settled .hsi) :: List.replicate turnOff.length .program),?_⟩
  rw [init_begins, run_append, hrun1, run]
  simp only [clockTurn, turn] at hrun3 ⊢
  rw [hrun3]
  rw [hkept] at hstatus3
  apply off_not_driven (d := d) (hstatus3.trans (hstatus1.trans h))
  cases d with
  | hsi => exact absurd rfl hd
  | hse => exact Facts.off_of hof3 rfl
  | pll => exact Facts.off_of hof3 rfl

theorem settled_on (s : Clocks) (d e : Source) : (hardware (.settled d) s).on e = s.on e := by
  rw [hardware]
  split
  · have hne : d.status ≠ e.enable := by cases d <;> cases e <;> decide
    simp [Clocks.on, Clocks.display, hne]
  · rfl

theorem settled_cfg0 (s : Clocks) (d : Source) : (hardware (.settled d) s).cell .cfg0 = s.cell .cfg0 := by
  rw [hardware]
  split <;> rfl

theorem settled_input (s : Clocks) (d : Source) : (hardware (.settled d) s).input = s.input := by
  rw [Clocks.input, settled_cfg0]
  rfl

theorem settled_powered (s : Clocks) (d e : Source) (h : s.powered e = true) :
    (hardware (.settled d) s).powered e = true := by
  simp only [Clocks.powered, settled_on, settled_input, Bool.and_eq_true, Bool.or_eq_true] at h ⊢
  refine ⟨h.1,h.2.imp_right fun hin => ?_⟩
  rw [Clocks.steady, Bool.and_eq_true] at hin ⊢
  rw [settled_on]
  refine ⟨hin.1,?_⟩
  rw [hardware]
  split
  · simp only [Clocks.ready] at hin ⊢
    simp [Clocks.display, hin.2]
  · exact hin.2

/-- A selected source that can run comes to drive. -/
theorem comes_to_drive (s : Clocks) (d : Source) (hs : s.Selects d) (hc : canRun s d = true) :
    (run hardware [.settled s.input,.settled d,.switched d] s).Drives d := by
  rw [canRun, Bool.and_eq_true, Bool.or_eq_true] at hc
  have hpowered : (hardware (.settled s.input) s).powered d = true := by
    rw [Clocks.powered, settled_on, settled_input, hc.1, Bool.true_and, Bool.or_eq_true]
    refine hc.2.imp_right fun hon => ?_
    have hin : s.powered s.input = true := by simp [Clocks.powered, hon, input_ne_pll]
    rw [Clocks.steady, settled_on, hon, settled_ready s _ hin, Bool.and_self]
  have hruns : (hardware (.settled d) (hardware (.settled s.input) s)).runs d = true := by
    rw [Clocks.runs, settled_powered _ d d hpowered, settled_ready _ d hpowered, Bool.and_self]
  have hselects : (hardware (.settled d) (hardware (.settled s.input) s)).Selects d := by
    rw [Clocks.Selects, settled_cfg0, settled_cfg0]
    exact hs
  exact selected_drives _ d hselects hruns

theorem leaving_loses (s : Clocks) (d : Source) (hd : d ≠ .hsi) (hs : s.Selects d)
    (hc : canRun s d = true) : ∃ ts, ¬ (run clockTurn ts (lnInitSystemClock,s)).2.Driven := by
  obtain ⟨ts,hts⟩ := init_loses _ d hd (comes_to_drive s d hs hc)
  refine ⟨[Event.settled s.input,.settled d,.switched d].map .event ++ ts,?_⟩
  rw [run_append, clockTurn, run_happenings]
  exact hts

/-! ### Why it is not lost otherwise -/

/-- The internal oscillator drives, `z` are bits of `CTL` that are clear, and `k` is known of `CFG0`. -/
def hsiFacts (z : Word) (k : Known 32) : Facts :=
  { unknown with
    ctl := ⟨BitVec.twoPow 32 Source.hsi.enable ||| BitVec.twoPow 32 Source.hsi.status,z⟩
    cfg0 := k.masked cfg0SysclockStatus 0 }

theorem hsi_of {s : Clocks} (hruns : s.runs .hsi = true) (hdrives : s.Drives .hsi) {z : Word}
    {k : Known 32} (hz : ∀ i, z.getLsbD i = true → (s.cell .ctl).getLsbD i = false)
    (hk : k.Of (s.cell .cfg0)) : (hsiFacts z k).Of s := by
  refine facts_of (fun i => ⟨fun hi => ?_,hz i⟩) (hk.masked _ _ hdrives)
  have hsteady := (runs_iff s .hsi).mp hruns .hsi (Or.inl rfl)
  rw [Clocks.steady, Bool.and_eq_true] at hsteady
  simp only [BitVec.getLsbD_or, BitVec.getLsbD_twoPow, Bool.or_eq_true, Bool.and_eq_true,
    decide_eq_true_eq] at hi
  rcases hi with ⟨-,rfl⟩ | ⟨-,rfl⟩
  · exact hsteady.1
  · exact hsteady.2

theorem off_bit {s : Clocks} {d : Source} (h : s.on d = false) (i : ℕ)
    (hi : (BitVec.twoPow 32 d.enable).getLsbD i = true) : (s.cell .ctl).getLsbD i = false := by
  rw [BitVec.getLsbD_twoPow, Bool.and_eq_true, decide_eq_true_eq, decide_eq_true_eq] at hi
  exact hi.2 ▸ h

/-- What is known of `CFG0` if the bits of a mask have a value. -/
theorem field_of (s : Clocks) (m v : Word) (h : s.cell .cfg0 &&& m = v) :
    (Known.nothing.masked m v).Of (s.cell .cfg0) := (Known.of_nothing _).masked m v h

theorem hse_input {s : Clocks} (hruns : s.runs .hsi = true) (hin : s.on s.input = false) :
    s.input = .hse := by
  by_contra hne
  have hhsi : s.input = .hsi := by
    cases hs : s.input with
    | hsi => rfl
    | hse => exact absurd hs hne
    | pll => exact absurd hs (input_ne_pll s)
  simp [Clocks.runs, Clocks.powered, ← hhsi, hin] at hruns

theorem input_bit {s : Clocks} (h : s.input = .hse) : s.cell .cfg0 &&& cfg0Pllsel = cfg0Pllsel := by
  have hbit : (s.cell .cfg0).getLsbD 16 = true := by
    by_contra hclear
    rw [Clocks.input, if_neg hclear] at h
    cases h
  have hmask : cfg0Pllsel = BitVec.twoPow 32 16 := by decide
  rw [hmask, BitVec.and_twoPow, if_pos hbit]

theorem hsi_clocked {s : Clocks} (hruns : s.runs .hsi = true) (h : AtHsi s) :
    ∃ f : Facts, f.Of s ∧ check (fun _ => true) lnInitSystemClock f.settle = true := by
  have hnone : ∀ i, (0 : Word).getLsbD i = true → (s.cell .ctl).getLsbD i = false := by simp
  have hof : ∀ {z : Word} {k : Known 32}, (∀ i, z.getLsbD i = true → (s.cell .ctl).getLsbD i = false) →
      k.Of (s.cell .cfg0) → (hsiFacts z k).Of s := hsi_of hruns h.drives
  rcases selected_cases (s.cell .cfg0) with h0 | h1 | h2 | h3
  · exact ⟨_,hof hnone (field_of s _ _ h0),by decide +kernel⟩
  · have hcan := (h.stays .hse h1).resolve_left (by decide)
    have hoff : s.on .hse = false := by simpa [canRun] using hcan
    exact ⟨_,hof (off_bit hoff) (field_of s _ _ h1),by decide +kernel⟩
  · have hcan := (h.stays .pll h2).resolve_left (by decide)
    by_cases hoff : s.on .pll = false
    · exact ⟨_,hof (off_bit hoff) (field_of s _ _ h2),by decide +kernel⟩
    · have hin : s.on s.input = false := by simpa [canRun, hoff] using hcan
      have hhse : s.input = .hse := hse_input hruns hin
      rw [hhse] at hin
      exact ⟨_,hof (off_bit hin) ((field_of s _ _ h2).masked _ _ (input_bit hhse)),by decide +kernel⟩
  · exact ⟨_,hof hnone (field_of s _ _ h3),by decide +kernel⟩

/-- Setting up the clocks never stops the source in use, in any order of the code's turns and
the hardware's events, exactly if the internal oscillator drives and nothing else can come
to drive. -/
theorem init_safe_iff (s : Clocks) (h : s.Driven) :
    (∀ ts, Throughout clockTurn (fun c => c.2.Driven) ts (lnInitSystemClock,s)) ↔ AtHsi s := by
  constructor
  · intro hall
    have hkept : ∀ ts, (run clockTurn ts (lnInitSystemClock,s)).2.Driven := fun ts =>
      throughout_last clockTurn (fun c => c.2.Driven) ts _ (hall ts)
    obtain ⟨d,hdrives,hruns⟩ := h
    have hhsi : d = .hsi := by
      by_contra hd
      obtain ⟨ts,hts⟩ := init_loses s d hd hdrives
      exact hts (hkept ts)
    subst hhsi
    refine ⟨hdrives,fun e he => ?_⟩
    by_contra hne
    rw [not_or, Bool.not_eq_false] at hne
    obtain ⟨ts,hts⟩ := leaving_loses s e hne.1 he hne.2
    exact hts (hkept ts)
  · intro hat ts
    have hruns : s.runs .hsi = true := by
      obtain ⟨d,hdrives,hr⟩ := h
      exact drives_unique hdrives hat.drives ▸ hr
    obtain ⟨f,hf,hcheck⟩ := hsi_clocked hruns hat
    have hclocked := checked_clocked (fun _ => true) (E := fun _ => True) (Q := fun _ => True)
      (fun _ _ _ _ => trivial) _ f hcheck (fun _ _ => trivial) s h hf
    exact throughout_mono clockTurn _ _ (fun _ hc => hc.1.1) ts _ (hclocked.1 ts)

theorem init_after_reset :
    (∀ ts, Throughout clockTurn (fun c => c.2.Driven) ts (lnInitSystemClock,afterReset)) ↔
      AtHsi afterReset :=
  init_safe_iff afterReset ⟨.hsi,by decide,by decide⟩

end Swindle.ClockSetUp
