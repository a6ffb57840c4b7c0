import Swindle.ClockFacts

/-!
# The processor never loses its clock

The clocks are set up and taken back while the hardware settles and switches when it
likes. In every order of these steps the source of the system clock keeps running,
and the flash has its wait states before the PLL can come to drive it.
-/

set_option autoImplicit false

namespace Swindle.ClockSafety
open Swindle.WordMemory Swindle.MachineRuns Swindle.KnownBits Swindle.Interference Swindle.ClockTree
  Swindle.ClockFacts

/-! ## A running source -/

def Needs (s : Clocks) (d e : Source) : Prop := e = d ∨ d = .pll ∧ e = s.input

theorem input_ne_pll (s : Clocks) : s.input ≠ .pll := by
  rw [Clocks.input]
  split <;> decide

theorem runs_iff (s : Clocks) (d : Source) : s.runs d = true ↔ ∀ e, Needs s d e → s.steady e = true := by
  simp only [Clocks.runs, Clocks.powered, Bool.and_eq_true, Bool.or_eq_true, bne_iff_ne]
  constructor
  · rintro ⟨⟨hon,hin⟩,hready⟩ e (rfl | ⟨hd,rfl⟩)
    · rw [Clocks.steady, hon, hready, Bool.and_self]
    · exact hin.resolve_left fun hne => hne hd
  · intro h
    have hd := h d (Or.inl rfl)
    rw [Clocks.steady, Bool.and_eq_true] at hd
    refine ⟨⟨hd.1,?_⟩,hd.2⟩
    by_cases hpll : d = .pll
    · exact Or.inr (h _ (Or.inr ⟨hpll,rfl⟩))
    · exact Or.inl hpll

theorem needs_powered {s : Clocks} {d e : Source} (h : s.runs d = true) (he : Needs s d e) :
    s.powered e = true := by
  rcases he with rfl | ⟨hd,rfl⟩
  · rw [Clocks.runs, Bool.and_eq_true] at h
    exact h.1
  · have hsteady := (runs_iff s d).mp h s.input (Or.inr ⟨hd,rfl⟩)
    rw [Clocks.steady, Bool.and_eq_true] at hsteady
    simp [Clocks.powered, hsteady.1, input_ne_pll]

theorem driven_kept {s s' : Clocks}
    (hstatus : s'.cell .cfg0 &&& cfg0SysclockStatus = s.cell .cfg0 &&& cfg0SysclockStatus)
    (hruns : ∀ d, s.runs d = true → s'.runs d = true) (h : s.Driven) : s'.Driven := by
  obtain ⟨d,hd,hr⟩ := h
  exact ⟨d,hstatus.trans hd,hruns d hr⟩

theorem settled_runs (s : Clocks) (d e : Source) (h : s.runs e = true) :
    (s.display .ctl (s.cell .ctl ||| BitVec.twoPow 32 d.status)).runs e = true := by
  rw [runs_iff] at h ⊢
  intro x hx
  have hsteady := h x hx
  simp only [Clocks.steady, Clocks.on, Clocks.ready, Bool.and_eq_true] at hsteady ⊢
  simp [Clocks.display, hsteady.1, hsteady.2]

theorem status_ne (d e : Source) (h : e ≠ d) : e.status ≠ d.status ∧ e.enable ≠ d.status := by
  cases d <;> cases e <;> simp_all [Source.status, Source.enable]

theorem stopped_runs (s : Clocks) (d e : Source) (hd : s.powered d = false) (h : s.runs e = true) :
    (s.display .ctl (s.cell .ctl &&& ~~~(BitVec.twoPow 32 d.status))).runs e = true := by
  rw [runs_iff]
  intro x hx
  have hsteady := (runs_iff s e).mp h x hx
  have hne : x ≠ d := by
    rintro rfl
    rw [needs_powered h hx] at hd
    cases hd
  obtain ⟨hstatus,henable⟩ := status_ne d x hne
  have hlt : x.status < 32 ∧ x.enable < 32 := by cases x <;> decide
  simp only [Clocks.steady, Clocks.on, Clocks.ready, Bool.and_eq_true] at hsteady ⊢
  simp [Clocks.display, hsteady.1, hsteady.2, hlt.1, hlt.2, hstatus, henable]

theorem runs_congr {s s' : Clocks} (hctl : s'.cell .ctl = s.cell .ctl) (hin : s'.input = s.input)
    (d : Source) : s'.runs d = s.runs d := by
  simp only [Clocks.runs, Clocks.powered, Clocks.steady, Clocks.on, Clocks.ready, hctl, hin]

theorem switched_input (s : Clocks) (d : Source) :
    (s.display .cfg0 ((s.cell .cfg0 &&& ~~~cfg0SysclockStatus) ||| d.code <<< 2)).input = s.input := by
  have hbit := Facts.switched_bit d (s.cell .cfg0) 16 rfl
  simp only [Clocks.input, Clocks.display, if_pos, hbit]

theorem switched_runs (s : Clocks) (d e : Source) :
    (s.display .cfg0 ((s.cell .cfg0 &&& ~~~cfg0SysclockStatus) ||| d.code <<< 2)).runs e = s.runs e := by
  apply runs_congr
  · rfl
  · exact switched_input s d

theorem switched_drives (s : Clocks) (d : Source) :
    (s.display .cfg0 ((s.cell .cfg0 &&& ~~~cfg0SysclockStatus) ||| d.code <<< 2)).Drives d := by
  simp only [Clocks.Drives, Clocks.display, if_pos]
  apply BitVec.eq_of_getLsbD_eq
  intro i hi
  have hcode := Facts.code_bit d i
  simp only [BitVec.getLsbD_and, BitVec.getLsbD_or, BitVec.getLsbD_not]
  grind

/-- The hardware has moved to the selected source. -/
theorem selected_drives (s : Clocks) (d : Source) (hs : s.Selects d) (hr : s.runs d = true) :
    (hardware (.switched d) s).Drives d := by
  rw [hardware, if_pos ⟨hs,hr⟩]
  exact switched_drives s d

theorem drives_unique {s : Clocks} {d e : Source} (hd : s.Drives d) (he : s.Drives e) : d = e := by
  have hcode : d.code <<< 2 = e.code <<< 2 := hd.symm.trans he
  cases d <;> cases e <;> first | rfl | exact absurd hcode (by decide)

theorem driven_stable : Stable hardware Clocks.Driven := by
  intro e s h
  cases e with
  | settled d =>
    rw [hardware]
    split
    · exact driven_kept (s := s) rfl (fun x => settled_runs s d x) h
    · exact h
  | stopped d =>
    rw [hardware]
    split
    · exact h
    · next hd => exact driven_kept (s := s) rfl (fun x => stopped_runs s d x (by simpa using hd)) h
  | switched d =>
    rw [hardware]
    split
    · next hd => exact ⟨d,switched_drives s d,(switched_runs s d d).trans hd.2⟩
    · exact h

/-! ## Instructions that keep the clock -/

/-- The instruction turns nothing off that was on, and it leaves the input of the PLL
alone or moves it to a source that is steady. -/
def spares (f : Facts) (k : Instr) : Bool :=
  match k with
  | .store c => match c with
    | .ctl => sources.all fun d =>
        f.t.ones.getLsbD d.enable || f.held == .ctl && f.same.getLsbD d.enable
    | .cfg0 => f.held == .cfg0 && f.same.getLsbD 16 || (Facts.after k f).inputSteady
    | _ => true
  | .put c _ => match c with
    | .ctl => false
    | .cfg0 => (Facts.after k f).inputSteady
    | _ => true
  | _ => true

/-- If not, then what is known afterwards shows a source that drives and runs. -/
def keeps (f : Facts) (k : Instr) : Bool := (Facts.after k f).driven || spares f k

/-- The status bits are out of reach of the code. -/
theorem exec_status {k : Instr} {s s' : Clocks} (hx : exec k s = some s') (c : Cell) :
    s'.cell c &&& statusBits c = s.cell c &&& statusBits c := by
  have hwrite : ∀ d v, (s.write d v).cell c &&& statusBits c = s.cell c &&& statusBits c := by
    intro d v
    by_cases hc : c = d
    · subst hc
      apply BitVec.eq_of_getLsbD_eq
      intro i hi
      simp only [Clocks.write, if_pos, BitVec.getLsbD_and, BitVec.getLsbD_or, BitVec.getLsbD_not]
      grind
    · simp only [Clocks.write, if_neg hc]
  cases k with
  | load d => cases hx; rfl
  | and m => cases hx; rfl
  | or v => cases hx; rfl
  | store d => cases hx; exact hwrite d _
  | put d v => cases hx; exact hwrite d v
  | awaitSome d m =>
    simp only [exec] at hx
    split at hx <;> cases hx
    rfl
  | awaitEqual d m v =>
    simp only [exec] at hx
    split at hx <;> cases hx
    rfl

/-- A store to `CTL` that leaves on what is on. -/
theorem write_ctl_runs (s : Clocks) (v : Word)
    (h : ∀ d, s.on d = true → v.getLsbD d.enable = true) (d : Source) (hr : s.runs d = true) :
    (s.write .ctl v).runs d = true := by
  rw [runs_iff] at hr ⊢
  intro e he
  have hsteady := hr e he
  have henable : (statusBits .ctl).getLsbD e.enable = false := by cases e <;> rfl
  have hstatus : (statusBits .ctl).getLsbD e.status = true := by cases e <;> rfl
  simp only [Clocks.steady, Clocks.on, Clocks.ready, Bool.and_eq_true] at hsteady ⊢
  have hready := congrArg (BitVec.getLsbD · e.status) (exec_status (k := .put .ctl v) rfl .ctl (s := s))
  simp only [BitVec.getLsbD_and, hstatus, Bool.and_true] at hready
  refine ⟨?_,hready.trans hsteady.2⟩
  rw [Facts.write_same s .ctl v _ henable]
  exact h e hsteady.1

/-- A store to `CFG0` that leaves the input of the PLL or moves it to a steady source. -/
theorem write_cfg0_runs (s : Clocks) (v : Word)
    (h : (s.write .cfg0 v).input = s.input ∨
      (s.write .cfg0 v).steady (s.write .cfg0 v).input = true) (d : Source) (hr : s.runs d = true) :
    (s.write .cfg0 v).runs d = true := by
  rw [runs_iff] at hr ⊢
  rintro e (rfl | ⟨hd,rfl⟩)
  · exact hr e (Or.inl rfl)
  · rcases h with hin | hsteady
    · rw [hin]
      exact hr _ (Or.inr ⟨hd,rfl⟩)
    · exact hsteady

theorem stored_ctl_runs {f : Facts} {s : Clocks} (h : f.Of s) (hk : spares f (.store .ctl) = true)
    (d : Source) (hr : s.runs d = true) : (s.write .ctl s.t).runs d = true := by
  apply write_ctl_runs s s.t _ d hr
  intro e he
  have hall := List.all_eq_true.mp hk e (mem_sources e)
  rw [Bool.or_eq_true, Bool.and_eq_true, beq_iff_eq] at hall
  rcases hall with hset | ⟨hheld,hsame⟩
  · exact (h.t _).1 hset
  · rw [h.same e.enable (by rw [hheld]; cases e <;> simpa [Source.enable, statusBits, ctlIrc8mstb,
      ctlHxtastb, ctlPllstb] using hsame), hheld]
    exact he

theorem stored_cfg0_runs {f : Facts} {s : Clocks} (h : f.Of s) (hk : spares f (.store .cfg0) = true)
    (d : Source) (hr : s.runs d = true) : (s.write .cfg0 s.t).runs d = true := by
  apply write_cfg0_runs s s.t _ d hr
  have hafter := Facts.after_of h (k := .store .cfg0) rfl
  rw [spares, Bool.or_eq_true, Bool.and_eq_true, beq_iff_eq] at hk
  rcases hk with ⟨hheld,hsame⟩ | hsteady
  · have hbit := h.same 16 (by rw [hheld]; simpa [statusBits, cfg0SysclockStatus] using hsame)
    have hnew := Facts.write_same s .cfg0 s.t 16 rfl
    rw [hheld] at hbit
    left
    rw [Clocks.input, Clocks.input, hnew, hbit]
  · exact Or.inr (Facts.input_steady_of hafter hsteady)

theorem keeps_driven {f : Facts} {k : Instr} {s s' : Clocks} (h : f.Of s)
    (hk : keeps f k = true) (hx : exec k s = some s') (hd : s.Driven) : s'.Driven := by
  have hafter := Facts.after_of h hx
  rw [keeps, Bool.or_eq_true] at hk
  rcases hk with hdriven | hk
  · exact Facts.driven_of hafter hdriven
  · refine driven_kept (exec_status hx .cfg0) ?_ hd
    cases k with
    | load c => cases hx; exact fun _ h => h
    | and m => cases hx; exact fun _ h => h
    | or v => cases hx; exact fun _ h => h
    | store c =>
      cases hx
      cases c with
      | ctl => exact stored_ctl_runs h hk
      | cfg0 => exact stored_cfg0_runs h hk
      | int => exact fun _ h => h
      | cfg1 => exact fun _ h => h
      | ws => exact fun _ h => h
      | systemCoreClock => exact fun _ h => h
    | put c v =>
      cases hx
      cases c with
      | ctl => cases hk
      | cfg0 => exact write_cfg0_runs s v (Or.inr (Facts.input_steady_of hafter hk))
      | int => exact fun _ h => h
      | cfg1 => exact fun _ h => h
      | ws => exact fun _ h => h
      | systemCoreClock => exact fun _ h => h
    | awaitSome d m =>
      simp only [exec] at hx
      split at hx <;> cases hx
      exact fun _ h => h
    | awaitEqual d m v =>
      simp only [exec] at hx
      split at hx <;> cases hx
      exact fun _ h => h

/-! ## Waits that come to an end -/

/-- The wait is over at once, or the hardware ends it for good. -/
def answers (f : Facts) : Instr → Bool
  | .awaitSome c m => c == .ctl && sources.any fun d => m == BitVec.twoPow 32 d.status && f.powered d
  | .awaitEqual c m v => c == .cfg0 && (f.cfg0.implies m v || m == cfg0SysclockStatus &&
      sources.any fun d => v == d.code <<< 2 && f.cfg0.implies cfg0SysclockMask d.code && f.runs d)
  | _ => true

theorem ready_stable (f : Facts) (d : Source) (hf : f.settle.powered d = true) :
    Stable hardware (fun s => f.settle.Of s ∧ s.ready d = true) := by
  rintro e s ⟨h,hready⟩
  refine ⟨Facts.settle_stable f e s h,?_⟩
  have hpowered := Facts.powered_of h hf
  cases e with
  | settled x =>
    rw [hardware]
    split
    · simp only [Clocks.ready] at hready ⊢
      simp [Clocks.display, hready]
    · exact hready
  | stopped x =>
    rw [hardware]
    split
    · exact hready
    · next hx =>
      have hne : d ≠ x := by
        rintro rfl
        exact hx hpowered
      have hlt : d.status < 32 := by cases d <;> decide
      have hstatus := (status_ne x d hne).1
      simp only [Clocks.ready] at hready ⊢
      simp [Clocks.display, hready, hlt, hstatus]
  | switched x =>
    rw [hardware]
    split <;> exact hready

theorem settled_ready (s : Clocks) (d : Source) (h : s.powered d = true) :
    (hardware (.settled d) s).ready d = true := by
  have hlt : d.status < 32 := by cases d <;> decide
  rw [hardware, if_pos h]
  simp [Clocks.ready, Clocks.display, hlt]

theorem code_injective (d e : Source) (h : d.code = e.code) : d = e := by
  cases d <;> cases e <;> first | rfl | exact absurd h (by decide)

theorem drives_stable (f : Facts) (d : Source)
    (hf : f.settle.cfg0.implies cfg0SysclockMask d.code = true) :
    Stable hardware (fun s => f.settle.Of s ∧ s.Drives d) := by
  rintro e s ⟨h,hdrives⟩
  refine ⟨Facts.settle_stable f e s h,?_⟩
  cases e with
  | settled x =>
    rw [hardware]
    split <;> exact hdrives
  | stopped x =>
    rw [hardware]
    split <;> exact hdrives
  | switched x =>
    rw [hardware]
    split
    · next hx =>
      have hselects := (h.cell .cfg0).implied _ _ hf
      rw [code_injective d x (hselects.symm.trans hx.1)]
      exact switched_drives s x
    · exact hdrives

theorem answers_answered (f : Facts) (k : Instr) (hk : answers f.settle k = true) :
    Answered exec hardware f.settle.Of k := by
  cases k with
  | awaitSome c m =>
    rw [answers, Bool.and_eq_true, beq_iff_eq] at hk
    obtain ⟨rfl,hk⟩ := hk
    obtain ⟨d,-,hd⟩ := List.any_eq_true.mp hk
    rw [Bool.and_eq_true, beq_iff_eq] at hd
    obtain ⟨rfl,hpowered⟩ := hd
    refine ⟨.settled d,_,ready_stable f d hpowered,fun s hs => ?_,fun s hs => ?_⟩
    · exact ⟨Facts.settle_stable f _ s hs,settled_ready s d (Facts.powered_of hs hpowered)⟩
    · have hready : (s.cell .ctl).getLsbD d.status = true := hs.2
      have hne : BitVec.twoPow 32 d.status ≠ 0 := by cases d <;> decide
      rw [exec, BitVec.and_twoPow, if_pos hready, if_neg hne]
      rfl
  | awaitEqual c m v =>
    rw [answers, Bool.and_eq_true, beq_iff_eq, Bool.or_eq_true, Bool.and_eq_true, beq_iff_eq] at hk
    obtain ⟨rfl,hnow | ⟨rfl,hk⟩⟩ := hk
    · refine ⟨.settled .hsi,_,Facts.settle_stable f,Facts.settle_stable f _,fun s hs => ?_⟩
      rw [exec, if_pos ((hs.cell .cfg0).implied _ _ hnow)]
      rfl
    · obtain ⟨d,-,hd⟩ := List.any_eq_true.mp hk
      rw [Bool.and_eq_true, Bool.and_eq_true, beq_iff_eq] at hd
      obtain ⟨⟨rfl,hselected⟩,hruns⟩ := hd
      refine ⟨.switched d,_,drives_stable f d hselected,fun s hs => ?_,fun s hs => ?_⟩
      · exact ⟨Facts.settle_stable f _ s hs,
          selected_drives s d ((hs.cell .cfg0).implied _ _ hselected) (Facts.runs_of hs hruns)⟩
      · have hdrives : s.cell .cfg0 &&& cfg0SysclockStatus = d.code <<< 2 := hs.2
        rw [exec, if_pos hdrives]
        rfl
  | load c => exact ⟨.settled .hsi,fun _ => True,fun _ _ _ => trivial,fun _ _ => trivial,fun _ _ => rfl⟩
  | and m => exact ⟨.settled .hsi,fun _ => True,fun _ _ _ => trivial,fun _ _ => trivial,fun _ _ => rfl⟩
  | or v => exact ⟨.settled .hsi,fun _ => True,fun _ _ _ => trivial,fun _ _ => trivial,fun _ _ => rfl⟩
  | store c => exact ⟨.settled .hsi,fun _ => True,fun _ _ _ => trivial,fun _ _ => trivial,fun _ _ => rfl⟩
  | put c v => exact ⟨.settled .hsi,fun _ => True,fun _ _ _ => trivial,fun _ _ => trivial,fun _ _ => rfl⟩

/-! ## The code as a whole -/

def check (ok : Facts → Bool) : List Instr → Facts → Bool
  | [], f => ok f
  | k::ks, f => ok f && answers f k && keeps f k && check ok ks (Facts.after k f).settle

def final : List Instr → Facts → Facts
  | [], f => f
  | k::ks, f => final ks (Facts.after k f).settle

def Holds (f : Facts) (s : Clocks) : Prop := s.Driven ∧ f.Of s

theorem holds_stable (f : Facts) : Stable hardware (Holds f.settle) := fun e s h =>
  ⟨driven_stable e s h.1,Facts.settle_stable f e s h.2⟩

theorem check_outline (ok : Facts → Bool) (E : Clocks → Prop)
    (hok : ∀ f s, ok f = true → f.Of s → E s) (ks : List Instr) (f : Facts)
    (h : check ok ks f.settle = true) :
    Outline exec hardware (fun s => s.Driven ∧ E s) (Holds f.settle) ks (Holds (final ks f.settle)) := by
  induction ks generalizing f with
  | nil => exact .done (holds_stable f) fun s hs => ⟨hs.1,hok _ s h hs.2⟩
  | cons k ks ih =>
    simp only [check, Bool.and_eq_true] at h
    obtain ⟨⟨⟨hnow,hanswers⟩,hkeeps⟩,hrest⟩ := h
    refine .next (holds_stable f) (fun s hs => ⟨hs.1,hok _ s hnow hs.2⟩) ?_ ?_ (ih _ hrest)
    · obtain ⟨e,R,hstable,hevent,hgo⟩ := answers_answered f k hanswers
      exact ⟨e,R,hstable,fun s hs => hevent s hs.2,hgo⟩
    · intro s s' hs hx
      exact ⟨keeps_driven hs.2 hkeeps hx hs.1,Facts.settle_cell_of (Facts.after_of hs.2 hx)⟩

end Swindle.ClockSafety
