import Swindle.KnownBits
import Swindle.ClockTree

/-!
# What is known of the clocks

The code is followed with the bits that are known of the registers. What the hardware
may change is forgotten after every instruction. A wait teaches what it has waited
for, and a store keeps the bits that have come from the register itself.
-/

set_option autoImplicit false

namespace Swindle.ClockFacts
open Swindle.WordMemory Swindle.KnownBits Swindle.Interference Swindle.ClockTree

/-- The local variable still has the bits `same` of the register `held`. -/
structure Facts where
  ctl : Known 32
  cfg0 : Known 32
  ws : Known 32
  core : Known 32
  t : Known 32
  held : Cell
  same : Word

def sources : List Source := [.hsi,.hse,.pll]

theorem mem_sources (d : Source) : d ∈ sources := by cases d <;> decide

/-- The two status bits as a number. -/
theorem status_cases (w : Word) : w &&& cfg0SysclockStatus = 0 ∨ w &&& cfg0SysclockStatus = 1 <<< 2 ∨
    w &&& cfg0SysclockStatus = 2 <<< 2 ∨ w &&& cfg0SysclockStatus = cfg0SysclockStatus := by
  have hbits : w &&& cfg0SysclockStatus =
      (if w.getLsbD 2 then 4 else 0) ||| (if w.getLsbD 3 then 8 else 0) := by
    apply BitVec.eq_of_getLsbD_eq
    intro i hi
    rw [BitVec.getLsbD_and]
    interval_cases i <;> cases w.getLsbD 2 <;> cases w.getLsbD 3 <;> simp [cfg0SysclockStatus]
  rw [hbits]
  cases w.getLsbD 2 <;> cases w.getLsbD 3 <;> decide

theorem selected_cases (w : Word) : w &&& cfg0SysclockMask = 0 ∨ w &&& cfg0SysclockMask = 1 ∨
    w &&& cfg0SysclockMask = 2 ∨ w &&& cfg0SysclockMask = 3 := by
  have hbits : w &&& cfg0SysclockMask =
      (if w.getLsbD 0 then 1 else 0) ||| (if w.getLsbD 1 then 2 else 0) := by
    apply BitVec.eq_of_getLsbD_eq
    intro i hi
    rw [BitVec.getLsbD_and]
    interval_cases i <;> cases w.getLsbD 0 <;> cases w.getLsbD 1 <;> simp [cfg0SysclockMask]
  rw [hbits]
  cases w.getLsbD 0 <;> cases w.getLsbD 1 <;> decide

namespace Facts

def cell (f : Facts) : Cell → Known 32
  | .ctl => f.ctl
  | .cfg0 => f.cfg0
  | .ws => f.ws
  | .systemCoreClock => f.core
  | _ => .nothing

def learn (f : Facts) (c : Cell) (k : Known 32) : Facts :=
  match c with
  | .ctl => { f with ctl := k }
  | .cfg0 => { f with cfg0 := k }
  | .ws => { f with ws := k }
  | .systemCoreClock => { f with core := k }
  | _ => f

structure Of (f : Facts) (s : Clocks) : Prop where
  cell : ∀ c, (f.cell c).Of (s.cell c)
  t : f.t.Of s.t
  same : ∀ i, (f.same &&& ~~~statusBits f.held).getLsbD i = true →
    s.t.getLsbD i = (s.cell f.held).getLsbD i

/-! ## One instruction -/

def written (f : Facts) (c : Cell) (k : Known 32) : Facts :=
  f.learn c (Known.kept (statusBits c) k (f.cell c))

def after : Instr → Facts → Facts
  | .load c, f => { f with t := f.cell c, held := c, same := ~~~0 }
  | .and m, f => { f with t := f.t.and m, same := f.same &&& m }
  | .or v, f => { f with t := f.t.or v, same := f.same &&& ~~~v }
  | .store c, f => { f.written c f.t with held := c, same := ~~~0 }
  | .put c v, f => { f.written c (.exactly v) with same := if f.held = c then 0 else f.same }
  | .awaitSome c m, f => f.learn c ((f.cell c).nonzero m)
  | .awaitEqual c m v, f => f.learn c ((f.cell c).masked m v)

theorem learn_rest (f : Facts) (c : Cell) (k : Known 32) :
    (f.learn c k).t = f.t ∧ (f.learn c k).held = f.held ∧ (f.learn c k).same = f.same := by
  cases c <;> exact ⟨rfl,rfl,rfl⟩

theorem learn_cell (f : Facts) (c : Cell) (k : Known 32) (cells : Cell → Word)
    (h : ∀ d, d ≠ c → (f.cell d).Of (cells d)) (hk : k.Of (cells c)) (d : Cell) :
    ((f.learn c k).cell d).Of (cells d) := by
  by_cases hd : d = c
  · subst hd
    cases d <;> first | exact hk | exact Known.of_nothing _
  · have hkept : (f.learn c k).cell d = f.cell d := by cases c <;> cases d <;> simp_all [learn, cell]
    rw [hkept]
    exact h d hd

theorem written_cell {f : Facts} {s : Clocks} (h : f.Of s) (c : Cell) (k : Known 32) (v : Word)
    (hk : k.Of v) (d : Cell) : ((f.written c k).cell d).Of ((s.write c v).cell d) := by
  apply learn_cell f c _ (s.write c v).cell
  · intro e he
    simpa only [Clocks.write, if_neg he] using h.cell e
  · simpa only [Clocks.write, if_pos] using hk.kept (h.cell c) (statusBits c)

theorem learned {f : Facts} {s : Clocks} (h : f.Of s) (c : Cell) (k : Known 32)
    (hk : k.Of (s.cell c)) : (f.learn c k).Of s := by
  obtain ⟨ht,hheld,hsame⟩ := learn_rest f c k
  constructor
  · exact learn_cell f c k s.cell (fun d _ => h.cell d) hk
  · rw [ht]
    exact h.t
  · rw [hheld, hsame]
    exact h.same

theorem write_same (s : Clocks) (c : Cell) (v : Word) (i : ℕ)
    (hi : (statusBits c).getLsbD i = false) : ((s.write c v).cell c).getLsbD i = v.getLsbD i := by
  have hv := @BitVec.getLsbD_of_ge 32 v i
  simp only [Clocks.write, if_pos, BitVec.getLsbD_or, BitVec.getLsbD_and, BitVec.getLsbD_not, hi]
  grind

/-- Every instruction does to the clocks what `after` does to the knowledge of them. -/
theorem after_of {f : Facts} {k : Instr} {s s' : Clocks} (h : f.Of s) (hx : exec k s = some s') :
    (after k f).Of s' := by
  cases k with
  | load c =>
    cases hx
    exact ⟨h.cell,h.cell c,fun _ _ => rfl⟩
  | and m =>
    cases hx
    refine ⟨h.cell,h.t.and m,fun i hi => ?_⟩
    have hs := h.same i
    simp only [after, BitVec.getLsbD_and] at hi hs ⊢
    grind
  | or v =>
    cases hx
    refine ⟨h.cell,h.t.or v,fun i hi => ?_⟩
    have hs := h.same i
    simp only [after, BitVec.getLsbD_and, BitVec.getLsbD_or, BitVec.getLsbD_not] at hi hs ⊢
    grind
  | store c =>
    cases hx
    refine ⟨written_cell h c f.t s.t h.t,?_,fun i hi => ?_⟩
    · exact (learn_rest f c _).1 ▸ h.t
    · refine (write_same s c s.t i ?_).symm
      simp only [after, BitVec.getLsbD_and, BitVec.getLsbD_not] at hi
      grind
  | put c v =>
    cases hx
    obtain ⟨ht,hheld,-⟩ := learn_rest f c (Known.kept (statusBits c) (.exactly v) (f.cell c))
    refine ⟨written_cell h c _ v (Known.of_exactly v),?_,fun i hi => ?_⟩
    · exact ht ▸ h.t
    · simp only [after, written, hheld] at hi ⊢
      by_cases hc : f.held = c
      · simp [if_pos hc] at hi
      · rw [if_neg hc] at hi
        simp only [Clocks.write, if_neg hc]
        exact h.same i hi
  | awaitSome c m =>
    simp only [exec] at hx
    split at hx
    · cases hx
    · next hm =>
      cases hx
      exact learned h c _ ((h.cell c).nonzero m hm)
  | awaitEqual c m v =>
    simp only [exec] at hx
    split at hx
    · next hm =>
      cases hx
      exact learned h c _ ((h.cell c).masked m v hm)
    · cases hx

/-! ## What the knowledge says of the sources -/

def steady (f : Facts) (d : Source) : Bool :=
  f.ctl.ones.getLsbD d.enable && f.ctl.ones.getLsbD d.status

def input (f : Facts) : Option Source :=
  if f.cfg0.ones.getLsbD 16 then some .hse
  else if f.cfg0.zeros.getLsbD 16 then some .hsi
  else none

def inputSteady (f : Facts) : Bool := f.input.any f.steady

def powered (f : Facts) (d : Source) : Bool :=
  f.ctl.ones.getLsbD d.enable && (d != .pll || f.inputSteady)

def runs (f : Facts) (d : Source) : Bool := f.powered d && f.ctl.ones.getLsbD d.status

def never (f : Facts) (d : Source) : Bool :=
  f.ctl.zeros.getLsbD d.enable ||
    (d == .pll && f.input.any fun e => f.ctl.zeros.getLsbD e.enable)

def stays (f : Facts) : Bool :=
  sources.all fun d => f.cfg0.excludes cfg0SysclockMask d.code || f.never d

def driven (f : Facts) : Bool :=
  (sources.all fun d => f.cfg0.excludes cfg0SysclockStatus (d.code <<< 2) || f.runs d) &&
    f.cfg0.excludes cfg0SysclockStatus cfg0SysclockStatus

def waits (f : Facts) : Bool :=
  f.ws.implies (BitVec.allOnes 32) wsLatency2 ||
    (f.cfg0.excludes cfg0SysclockStatus (Source.pll.code <<< 2) &&
      f.cfg0.excludes cfg0SysclockMask Source.pll.code)

section Sound
variable {f : Facts} {s : Clocks} (h : f.Of s)
include h

theorem on_of {d : Source} (hf : f.ctl.ones.getLsbD d.enable = true) : s.on d = true :=
  (h.cell .ctl _).1 hf

theorem ready_of {d : Source} (hf : f.ctl.ones.getLsbD d.status = true) : s.ready d = true :=
  (h.cell .ctl _).1 hf

theorem off_of {d : Source} (hf : f.ctl.zeros.getLsbD d.enable = true) : s.on d = false :=
  (h.cell .ctl _).2 hf

theorem steady_of {d : Source} (hf : f.steady d = true) : s.steady d = true := by
  rw [steady, Bool.and_eq_true] at hf
  rw [Clocks.steady, on_of h hf.1, ready_of h hf.2, Bool.and_self]

theorem input_of {d : Source} (hf : f.input = some d) : s.input = d := by
  have hbit := h.cell .cfg0 16
  rw [input] at hf
  rw [Clocks.input]
  split at hf
  · next hone =>
    cases hf
    exact if_pos (hbit.1 hone)
  · split at hf
    · next hzero =>
      cases hf
      exact if_neg (by rw [hbit.2 hzero]; decide)
    · cases hf

theorem input_steady_of (hf : f.inputSteady = true) : s.steady s.input = true := by
  rw [inputSteady] at hf
  cases hd : f.input with
  | none => simp [hd] at hf
  | some d =>
    rw [hd, Option.any_some] at hf
    rw [input_of h hd]
    exact steady_of h hf

theorem powered_of {d : Source} (hf : f.powered d = true) : s.powered d = true := by
  rw [powered, Bool.and_eq_true, Bool.or_eq_true] at hf
  rw [Clocks.powered, on_of h hf.1, Bool.true_and, Bool.or_eq_true]
  exact hf.2.imp_right (input_steady_of h)

theorem runs_of {d : Source} (hf : f.runs d = true) : s.runs d = true := by
  rw [runs, Bool.and_eq_true] at hf
  rw [Clocks.runs, powered_of h hf.1, ready_of h hf.2, Bool.and_self]

theorem never_of {d : Source} (hf : f.never d = true) : s.runs d = false := by
  rw [never, Bool.or_eq_true, Bool.and_eq_true, beq_iff_eq] at hf
  rw [Clocks.runs, Clocks.powered]
  rcases hf with hoff | ⟨hpll,hinput⟩
  · rw [off_of h hoff]
    rfl
  · cases he : f.input with
    | none => simp [he] at hinput
    | some e =>
      rw [he, Option.any_some] at hinput
      rw [hpll, input_of h he, Clocks.steady, off_of h hinput]
      simp

theorem stays_of (hf : f.stays = true) (d : Source) (hs : s.Selects d) : s.runs d = false := by
  have hd := List.all_eq_true.mp hf d (mem_sources d)
  rw [Bool.or_eq_true] at hd
  rcases hd with hout | hnever
  · exact absurd hs ((h.cell .cfg0).excluded _ _ hout)
  · exact never_of h hnever

theorem driven_of (hf : f.driven = true) : s.Driven := by
  rw [driven, Bool.and_eq_true] at hf
  have hsome : ∃ d, s.Drives d := by
    have hlast := (h.cell .cfg0).excluded _ _ hf.2
    rcases status_cases (s.cell .cfg0) with h0 | h1 | h2 | h3
    · exact ⟨.hsi,h0⟩
    · exact ⟨.hse,h1⟩
    · exact ⟨.pll,h2⟩
    · exact absurd h3 hlast
  obtain ⟨d,hd⟩ := hsome
  have hall := List.all_eq_true.mp hf.1 d (mem_sources d)
  rw [Bool.or_eq_true] at hall
  rcases hall with hout | hruns
  · exact absurd hd ((h.cell .cfg0).excluded _ _ hout)
  · exact ⟨d,hd,runs_of h hruns⟩

theorem waits_of (hf : f.waits = true) : s.Waits := by
  rw [waits, Bool.or_eq_true, Bool.and_eq_true] at hf
  intro hpll
  rcases hf with hws | ⟨hdrives,hselects⟩
  · exact (h.cell .ws).pinned _ hws
  · rcases hpll with hd | hs
    · exact absurd hd ((h.cell .cfg0).excluded _ _ hdrives)
    · exact absurd hs ((h.cell .cfg0).excluded _ _ hselects)

end Sound

/-! ## Events -/

/-- The status bits that the hardware may withdraw. -/
def unsettled (f : Facts) : Word :=
  (if f.powered .hsi then 0 else BitVec.twoPow 32 Source.hsi.status) |||
    (if f.powered .hse then 0 else BitVec.twoPow 32 Source.hse.status) |||
    (if f.powered .pll then 0 else BitVec.twoPow 32 Source.pll.status)

def settle (f : Facts) : Facts :=
  { f with
    ctl := f.ctl.forget f.unsettled (statusBits .ctl)
    cfg0 := if f.stays then f.cfg0 else
      f.cfg0.forget (cfg0SysclockStatus &&& ~~~(f.cfg0.ones <<< 2))
        (cfg0SysclockStatus &&& ~~~(f.cfg0.zeros <<< 2)) }

theorem unsettled_enable (f : Facts) (d : Source) : f.unsettled.getLsbD d.enable = false := by
  rw [unsettled]
  cases f.powered .hsi <;> cases f.powered .hse <;> cases f.powered .pll <;> cases d <;> decide

theorem unsettled_status (f : Facts) (d : Source) :
    f.unsettled.getLsbD d.status = !f.powered d := by
  rw [unsettled]
  cases d <;> cases f.powered .hsi <;> cases f.powered .hse <;> cases f.powered .pll <;> decide

theorem settle_cell_of {f : Facts} {s : Clocks} (h : f.Of s) : f.settle.Of s := by
  refine ⟨fun c => ?_,h.t,h.same⟩
  cases c with
  | ctl => exact (h.cell .ctl).forget _ _
  | cfg0 =>
    change (if f.stays then f.cfg0 else _ : Known 32).Of _
    split
    · exact h.cell .cfg0
    · exact (h.cell .cfg0).forget _ _
  | ws => exact h.cell .ws
  | systemCoreClock => exact h.cell .systemCoreClock
  | int => exact h.cell .int
  | cfg1 => exact h.cell .cfg1

theorem settle_enable (f : Facts) (d : Source) :
    f.settle.ctl.ones.getLsbD d.enable = f.ctl.ones.getLsbD d.enable := by
  rw [settle, Known.forget, BitVec.getLsbD_and, BitVec.getLsbD_not, unsettled_enable]
  cases d <;> simp [Source.enable]

theorem settle_status (f : Facts) (d : Source) :
    f.settle.ctl.ones.getLsbD d.status = (f.ctl.ones.getLsbD d.status && f.powered d) := by
  rw [settle, Known.forget, BitVec.getLsbD_and, BitVec.getLsbD_not, unsettled_status]
  cases d <;> simp [Source.enable, Source.status]

theorem settle_status_clear (f : Facts) (d : Source) :
    f.settle.ctl.zeros.getLsbD d.status = false := by
  cases d <;> simp [settle, Known.forget, statusBits, Source.status, Source.enable, ctlIrc8mstb,
    ctlHxtastb, ctlPllstb]

theorem settle_input (f : Facts) : f.settle.input = f.input := by
  rw [input, input, settle]
  split <;> simp [Known.forget, cfg0SysclockStatus]

theorem settle_off (f : Facts) (d : Source) :
    f.settle.ctl.zeros.getLsbD d.enable = f.ctl.zeros.getLsbD d.enable := by
  cases d <;> simp [settle, Known.forget, statusBits, Source.enable, ctlIrc8mstb, ctlHxtastb,
    ctlPllstb]

theorem settle_stays (f : Facts) (hf : f.stays = true) : f.settle.stays = true := by
  have hcfg0 : f.settle.cfg0 = f.cfg0 := if_pos hf
  have hnever : ∀ d, f.settle.never d = f.never d := by
    intro d
    simp only [never, settle_off, settle_input]
  simpa only [stays, hcfg0, hnever] using hf

theorem input_ne (f : Facts) (e : Source) (he : f.input = some e) : e ≠ .pll := by
  rw [input] at he
  split at he
  · cases he
    decide
  · split at he
    · cases he
      decide
    · cases he

/-- What is still known of a source's own bits is not changed by any event. -/
theorem settle_powered (f : Facts) (d : Source) (hf : f.powered d = true) :
    f.settle.powered d = true := by
  rw [powered, Bool.and_eq_true, Bool.or_eq_true] at hf ⊢
  rw [settle_enable]
  refine ⟨hf.1,hf.2.imp_right fun hin => ?_⟩
  rw [inputSteady] at hin ⊢
  rw [settle_input]
  cases he : f.input with
  | none => simp [he] at hin
  | some e =>
    rw [he, Option.any_some] at hin
    rw [Option.any_some]
    rw [steady, Bool.and_eq_true] at hin ⊢
    rw [settle_enable, settle_status, hin.1, hin.2, powered, hin.1]
    simp [input_ne f e he]

theorem display_of {f : Facts} {s : Clocks} (h : f.Of s) (c : Cell) (v : Word)
    (hv : (f.cell c).Of v)
    (hrest : ∀ i, (statusBits c).getLsbD i = false → v.getLsbD i = (s.cell c).getLsbD i) :
    f.Of (s.display c v) := by
  refine ⟨fun d => ?_,h.t,fun i hi => ?_⟩
  · by_cases hd : d = c
    · subst hd
      simpa only [Clocks.display, if_pos] using hv
    · simpa only [Clocks.display, if_neg hd] using h.cell d
  · have hsame := h.same i hi
    simp only [BitVec.getLsbD_and, BitVec.getLsbD_not] at hi
    by_cases hc : f.held = c
    · simp only [Clocks.display, if_pos hc]
      rw [hrest i (by rw [← hc]; grind), ← hc]
      exact hsame
    · simpa only [Clocks.display, if_neg hc] using hsame

theorem status_enabled (d : Source) (i : ℕ) (hi : (statusBits .ctl).getLsbD i = false) :
    i ≠ d.status := by
  rintro rfl
  cases d <;> simp [statusBits, Source.status, Source.enable, ctlIrc8mstb, ctlHxtastb, ctlPllstb] at hi

theorem sysclock_status_bit (i : ℕ) :
    cfg0SysclockStatus.getLsbD i = decide (i = 2 ∨ i = 3) := by
  by_cases hi : i < 32
  · interval_cases i <;> rfl
  · rw [BitVec.getLsbD_of_ge _ _ (by omega)]
    simp
    omega

theorem code_bit (d : Source) (i : ℕ) (hi : cfg0SysclockStatus.getLsbD i = false) :
    (d.code <<< 2).getLsbD i = false := by
  have hcode : d.code <<< 2 = d.code <<< 2 &&& cfg0SysclockStatus := by cases d <;> decide
  rw [hcode, BitVec.getLsbD_and, hi, Bool.and_false]

/-- Behind the status bits nothing changes. -/
theorem switched_bit (d : Source) (w : Word) (i : ℕ) (hi : cfg0SysclockStatus.getLsbD i = false) :
    ((w &&& ~~~cfg0SysclockStatus) ||| d.code <<< 2).getLsbD i = w.getLsbD i := by
  have hlt := @BitVec.getLsbD_of_ge 32 w i
  simp only [BitVec.getLsbD_or, BitVec.getLsbD_and, BitVec.getLsbD_not, hi, code_bit d i hi]
  grind

/-- In them stands what is selected. -/
theorem switched_status (d : Source) (w : Word) (hs : w &&& cfg0SysclockMask = d.code) :
    ((w &&& ~~~cfg0SysclockStatus) ||| d.code <<< 2).getLsbD 2 = w.getLsbD 0 ∧
      ((w &&& ~~~cfg0SysclockStatus) ||| d.code <<< 2).getLsbD 3 = w.getLsbD 1 := by
  rw [← hs]
  simp [cfg0SysclockStatus, cfg0SysclockMask]

theorem settled_of {f : Facts} {s : Clocks} (h : f.settle.Of s) (d : Source) :
    f.settle.Of (s.display .ctl (s.cell .ctl ||| BitVec.twoPow 32 d.status)) := by
  have hctl := h.cell .ctl
  apply display_of h
  · intro i
    have hi := hctl i
    have hclear := settle_status_clear f d
    simp only [BitVec.getLsbD_or, BitVec.getLsbD_twoPow, cell] at hi ⊢
    grind
  · intro i hi
    have hne := status_enabled d i hi
    simp only [BitVec.getLsbD_or, BitVec.getLsbD_twoPow]
    grind

theorem stopped_of {f : Facts} {s : Clocks} (h : f.settle.Of s) (d : Source)
    (hd : s.powered d = false) :
    f.settle.Of (s.display .ctl (s.cell .ctl &&& ~~~(BitVec.twoPow 32 d.status))) := by
  have hctl := h.cell .ctl
  have hone : f.settle.ctl.ones.getLsbD d.status = false := by
    rw [settle_status]
    by_contra hne
    rw [Bool.not_eq_false, Bool.and_eq_true] at hne
    rw [powered_of h (settle_powered f d hne.2)] at hd
    cases hd
  apply display_of h
  · intro i
    have hi := hctl i
    have hlt := @BitVec.getLsbD_of_ge 32 (s.cell .ctl) i
    simp only [BitVec.getLsbD_and, BitVec.getLsbD_not, BitVec.getLsbD_twoPow, cell] at hi ⊢
    grind
  · intro i hi
    have hne := status_enabled d i hi
    have hlt := @BitVec.getLsbD_of_ge 32 (s.cell .ctl) i
    simp only [BitVec.getLsbD_and, BitVec.getLsbD_not, BitVec.getLsbD_twoPow]
    grind

theorem switched_of {f : Facts} {s : Clocks} (h : f.settle.Of s) (d : Source) (hs : s.Selects d)
    (hd : s.runs d = true) :
    f.settle.Of (s.display .cfg0 ((s.cell .cfg0 &&& ~~~cfg0SysclockStatus) ||| d.code <<< 2)) := by
  have hstays : f.stays = false := by
    by_contra hne
    rw [Bool.not_eq_false] at hne
    rw [stays_of h (settle_stays f hne) d hs] at hd
    cases hd
  have hcfg0 := h.cell .cfg0
  apply display_of h
  · have hcell : f.settle.cell .cfg0 = f.cfg0.forget (cfg0SysclockStatus &&& ~~~(f.cfg0.ones <<< 2))
        (cfg0SysclockStatus &&& ~~~(f.cfg0.zeros <<< 2)) := if_neg (by rw [hstays]; decide)
    rw [hcell] at hcfg0 ⊢
    intro i
    have hi := hcfg0 i
    have h0 := hcfg0 0
    have h1 := hcfg0 1
    obtain ⟨hnew2,hnew3⟩ := switched_status d (s.cell .cfg0) hs
    simp only [Known.forget, BitVec.getLsbD_and, BitVec.getLsbD_not, sysclock_status_bit,
      BitVec.getLsbD_shiftLeft] at hi h0 h1 ⊢
    by_cases h2 : i = 2
    · subst h2
      rw [hnew2]
      simp at h0 ⊢
      grind
    · by_cases h3 : i = 3
      · subst h3
        rw [hnew3]
        simp at h1 ⊢
        grind
      · rw [switched_bit d _ i (by rw [sysclock_status_bit]; simp [h2, h3])]
        exact hi
  · exact fun i hi => switched_bit d _ i hi

theorem settle_stable (f : Facts) : Stable hardware f.settle.Of := by
  intro e s h
  cases e with
  | settled d =>
    rw [hardware]
    split
    · exact settled_of h d
    · exact h
  | stopped d =>
    rw [hardware]
    split
    · exact h
    · next hd => exact stopped_of h d (by simpa using hd)
  | switched d =>
    rw [hardware]
    split
    · next hd => exact switched_of h d hd.1 hd.2
    · exact h

end Facts

end Swindle.ClockFacts
