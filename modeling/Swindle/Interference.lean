import Swindle.MachineRuns

/-!
# Programs among events

A program is a list of instructions that take their turns one after the other, and
between any two of them the surroundings may do what they like. An instruction that
has no result waits. The proof outline of such a program has an assertion in front of
every instruction that no event breaks, and an event for every instruction that ends
its waiting for good.
-/

set_option autoImplicit false

namespace Swindle.Interference

open MachineRuns

inductive Turn (ε : Type*) where
  | program
  | event (e : ε)

section Programs
variable {κ ε σ : Type*} (exec : κ → σ → Option σ) (happen : ε → σ → σ)

def turn : Turn ε → List κ × σ → List κ × σ
  | .event e, (ks,s) => (ks,happen e s)
  | .program, ([],s) => ([],s)
  | .program, (k::ks,s) =>
    match exec k s with
    | some s' => (ks,s')
    | none => (k::ks,s)

def Stable (P : σ → Prop) : Prop := ∀ e s, P s → P (happen e s)

/-- Once the event has happened, the instruction can go on, whatever else happens. -/
def Answered (P : σ → Prop) (k : κ) : Prop :=
  ∃ (e : ε) (R : σ → Prop), Stable happen R ∧ (∀ s, P s → R (happen e s)) ∧
    ∀ s, R s → (exec k s).isSome

inductive Outline (I : σ → Prop) : (σ → Prop) → List κ → (σ → Prop) → Prop
  | done {P : σ → Prop} (stable : Stable happen P) (safe : ∀ s, P s → I s) : Outline I P [] P
  | next {P R Q : σ → Prop} {k : κ} {ks : List κ} (stable : Stable happen P)
      (safe : ∀ s, P s → I s) (answered : Answered exec happen P k)
      (step : ∀ s s', P s → exec k s = some s' → R s') (rest : Outline I R ks Q) :
      Outline I P (k::ks) Q
  | weaken {P P' Q : σ → Prop} {ks : List κ} (pre : ∀ s, P' s → P s) (rest : Outline I P ks Q) :
      Outline I P' ks Q

/-- The state meets the assertion in front of what is left of the program. -/
def Follows (I Q : σ → Prop) (c : List κ × σ) : Prop :=
  ∃ P : σ → Prop, Outline exec happen I P c.1 Q ∧ P c.2

variable {exec happen}

/-! ## What holds in every state visited -/

theorem follows_turn {I P Q : σ → Prop} {ks : List κ} (h : Outline exec happen I P ks Q) (t : Turn ε)
    (s : σ) (hs : P s) : Follows exec happen I Q (turn exec happen t (ks,s)) := by
  induction h generalizing s with
  | done stable safe =>
    cases t with
    | program => exact ⟨_,.done stable safe,hs⟩
    | event e => exact ⟨_,.done stable safe,stable e s hs⟩
  | @next P R Q k ks stable safe answered step rest ih =>
    cases t with
    | event e => exact ⟨P,.next stable safe answered step rest,stable e s hs⟩
    | program =>
      cases hx : exec k s with
      | none =>
        simp only [turn, hx]
        exact ⟨P,.next stable safe answered step rest,hs⟩
      | some s' =>
        simp only [turn, hx]
        exact ⟨R,rest,step s s' hs hx⟩
  | weaken pre rest ih => exact ih s (pre s hs)

theorem follows_safe {I P Q : σ → Prop} {ks : List κ} (h : Outline exec happen I P ks Q) (s : σ)
    (hs : P s) : I s ∧ (ks = [] → Q s) := by
  induction h with
  | done stable safe => exact ⟨safe s hs,fun _ => hs⟩
  | next stable safe answered step rest ih => exact ⟨safe s hs,fun h => absurd h (by simp)⟩
  | weaken pre rest ih => exact ih (pre s hs)

theorem run_happenings (es : List ε) (ks : List κ) (s : σ) :
    run (turn exec happen) (es.map .event) (ks,s) = (ks,run happen es s) := by
  induction es generalizing s with
  | nil => rfl
  | cons e es ih => exact ih _

theorem follows_run {I Q : σ → Prop} (ts : List (Turn ε)) (c : List κ × σ)
    (h : Follows exec happen I Q c) : Follows exec happen I Q (run (turn exec happen) ts c) := by
  apply run_always (turn exec happen) (Follows exec happen I Q) _ ts c h
  intro t c hc
  obtain ⟨P,ho,hs⟩ := hc
  exact follows_turn ho t c.2 hs

/-- Whatever happens between the instructions, every state visited is safe, and the
program ends in its postcondition. -/
theorem outline_throughout {I P Q : σ → Prop} {ks : List κ} (h : Outline exec happen I P ks Q) (s : σ)
    (hs : P s) (ts : List (Turn ε)) :
    Throughout (turn exec happen) (fun c => I c.2 ∧ (c.1 = [] → Q c.2)) ts (ks,s) := by
  induction ts generalizing P ks s with
  | nil => exact follows_safe h s hs
  | cons t ts ih =>
    obtain ⟨R,hr,hnext⟩ := follows_turn h t s hs
    exact ⟨follows_safe h s hs,ih hr _ hnext⟩

/-! ## The end is reached -/

/-- Everything happens that can, and then the program has a turn. -/
def Fair (ts : List (Turn ε)) : Prop :=
  ∃ front, ts = front ++ [Turn.program] ∧ ∀ e, Turn.event e ∈ front

theorem turn_length (t : Turn ε) (c : List κ × σ) :
    (turn exec happen t c).1.length ≤ c.1.length := by
  obtain ⟨ks,s⟩ := c
  cases t with
  | event e => exact le_rfl
  | program =>
    cases ks with
    | nil => exact le_rfl
    | cons k ks => cases hx : exec k s <;> simp [turn, hx]

theorem run_length (ts : List (Turn ε)) (c : List κ × σ) :
    (run (turn exec happen) ts c).1.length ≤ c.1.length := by
  induction ts generalizing c with
  | nil => exact le_rfl
  | cons t ts ih => exact (ih _).trans (turn_length t c)

/-- The program has gone on, or it is where it was and `R` holds. -/
def Advanced (k : κ) (ks : List κ) (R : σ → Prop) (c : List κ × σ) : Prop :=
  c.1.length ≤ ks.length ∨ c.1 = k::ks ∧ R c.2

theorem program_turn (k : κ) (ks : List κ) (R : σ → Prop) (s : σ) (hs : R s) :
    Advanced k ks R (turn exec happen .program (k::ks,s)) := by
  cases hx : exec k s with
  | none => exact Or.inr ⟨by simp [turn, hx],by simpa [turn, hx] using hs⟩
  | some s' => exact Or.inl (by simp [turn, hx])

theorem run_advanced (k : κ) (ks : List κ) (R : σ → Prop) (hr : Stable happen R) (ts : List (Turn ε))
    (c : List κ × σ) (h : Advanced k ks R c) :
    Advanced k ks R (run (turn exec happen) ts c) := by
  apply run_always (turn exec happen) (Advanced k ks R) _ ts c h
  intro t c hc
  obtain ⟨cs,s⟩ := c
  rcases hc with hshort | ⟨hcode,hs⟩
  · exact Or.inl ((turn_length t _).trans hshort)
  · cases hcode
    cases t with
    | event e => exact Or.inr ⟨rfl,hr e s hs⟩
    | program => exact program_turn k ks R s hs

theorem event_advanced (k : κ) (ks : List κ) (P R : σ → Prop) (hp : Stable happen P)
    (hr : Stable happen R) (e : ε) (he : ∀ s, P s → R (happen e s)) (ts : List (Turn ε))
    (hmem : Turn.event e ∈ ts) (c : List κ × σ) (h : Advanced k ks P c) :
    Advanced k ks R (run (turn exec happen) ts c) := by
  obtain ⟨front,back,rfl⟩ := List.append_of_mem hmem
  rw [run_append, run]
  apply run_advanced k ks R hr
  rcases run_advanced k ks P hp front c h with hshort | ⟨hcode,hs⟩
  · exact Or.inl ((turn_length _ _).trans hshort)
  · exact Or.inr ⟨hcode,he _ hs⟩

theorem outline_head {I P Q : σ → Prop} {k : κ} {ks ls : List κ}
    (h : Outline exec happen I P ls Q) (hls : ls = k::ks) (s : σ) (hs : P s) :
    ∃ R : σ → Prop, Stable happen R ∧ R s ∧ Answered exec happen R k := by
  induction h with
  | done stable safe => simp at hls
  | next stable safe answered step rest ih =>
    cases hls
    exact ⟨_,stable,hs,answered⟩
  | weaken pre rest ih => exact ih hls (pre s hs)

theorem fair_shorter {I P Q : σ → Prop} {k : κ} {ks : List κ}
    (h : Outline exec happen I P (k::ks) Q) (s : σ) (hs : P s) (ts : List (Turn ε)) (hf : Fair ts) :
    (run (turn exec happen) ts (k::ks,s)).1.length ≤ ks.length := by
  obtain ⟨front,rfl,hall⟩ := hf
  obtain ⟨R,hstable,hr,e,S,hS,hevent,hgo⟩ := outline_head h rfl s hs
  have hfront := @event_advanced _ _ _ exec happen k ks R S hstable hS e hevent front (hall e) (k::ks,s)
    (Or.inr ⟨rfl,hr⟩)
  rw [run_append]
  generalize run (turn exec happen) front (k::ks,s) = c at hfront
  obtain ⟨cs,s'⟩ := c
  rcases hfront with hshort | ⟨hcode,hs'⟩
  · exact (turn_length _ _).trans hshort
  · cases hcode
    obtain ⟨s'',hx⟩ := Option.isSome_iff_exists.mp (hgo s' hs')
    simp [run, turn, hx]

/-- As many fair stretches as there are instructions, and the program has ended. -/
theorem outline_finishes {I P Q : σ → Prop} {ks : List κ} (h : Outline exec happen I P ks Q) (s : σ)
    (hs : P s) (stretches : List (List (Turn ε))) (hf : ∀ ts ∈ stretches, Fair ts)
    (hlen : ks.length ≤ stretches.length) :
    (run (turn exec happen) stretches.flatten (ks,s)).1 = [] := by
  induction stretches generalizing P ks s with
  | nil => exact List.length_eq_zero_iff.mp (Nat.le_zero.mp hlen)
  | cons ts rest ih =>
    rw [List.flatten_cons, run_append]
    obtain ⟨R,hr,hnext⟩ := follows_run ts (ks,s) ⟨P,h,hs⟩
    apply ih hr _ hnext (fun us hus => hf us (List.mem_cons_of_mem _ hus))
    cases ks with
    | nil => exact (run_length ts _).trans (Nat.zero_le _)
    | cons k ks =>
      have hshort := fair_shorter h s hs ts (hf ts (List.mem_cons_self ..))
      simp only [List.length_cons] at hlen
      omega

end Programs

end Swindle.Interference
