import Mathlib

/-!
# Runs of deterministic machines

A machine is a step function over inputs and states. A run consumes a finite
list of inputs. Properties are stated of every step of a run, which sees the
input and the state it meets, or of every state visited. A watcher is carried
along a run without influencing it, and records what the inputs asked for.
-/

set_option autoImplicit false

namespace Swindle.MachineRuns

variable {ι σ τ γ : Type*}

def run (step : ι → σ → σ) : List ι → σ → σ
  | [], s => s
  | i::is, s => run step is (step i s)

/-- Every step of the run meets `P`, which sees the input and the state before it. -/
def Along (step : ι → σ → σ) (P : ι → σ → Prop) : List ι → σ → Prop
  | [], _ => True
  | i::is, s => P i s ∧ Along step P is (step i s)

/-- Every state visited meets `Q`, the first and the last included. -/
def Throughout (step : ι → σ → σ) (Q : σ → Prop) : List ι → σ → Prop
  | [], s => Q s
  | i::is, s => Q s ∧ Throughout step Q is (step i s)

/-- What each step of a run shows of the states before and after it. -/
def trace {ο : Type*} (step : ι → σ → σ) (out : σ → σ → ο) : List ι → σ → List ο
  | [], _ => []
  | i::is, s => out s (step i s) :: trace step out is (step i s)

def watched (step : ι → σ → σ) (watch : ι → σ → γ → γ) (i : ι) (p : σ × γ) : σ × γ :=
  (step i p.1, watch i p.1 p.2)

def decidableAlong (step : ι → σ → σ) (P : ι → σ → Prop) [∀ i s, Decidable (P i s)] :
    ∀ is s, Decidable (Along step P is s)
  | [], _ => isTrue trivial
  | i::is, s => @instDecidableAnd _ _ _ (decidableAlong step P is (step i s))

instance (step : ι → σ → σ) (P : ι → σ → Prop) [∀ i s, Decidable (P i s)] (is : List ι) (s : σ) :
    Decidable (Along step P is s) := decidableAlong step P is s

section Single
variable (step : ι → σ → σ)

theorem run_append (is js : List ι) (s : σ) :
    run step (is++js) s = run step js (run step is s) := by
  induction is generalizing s with
  | nil => rfl
  | cons i is ih => exact ih _

/-- A run over groups of inputs is a run of the machine that takes a group a step. -/
theorem run_flatMap {κ : Type*} (f : κ → List ι) (ks : List κ) (s : σ) :
    run step (ks.flatMap f) s = run (fun k => run step (f k)) ks s := by
  induction ks generalizing s with
  | nil => rfl
  | cons k ks ih => rw [List.flatMap_cons, run_append, run, ih]

theorem along_append (P : ι → σ → Prop) (is js : List ι) (s : σ) :
    Along step P (is++js) s ↔ Along step P is s ∧ Along step P js (run step is s) := by
  induction is generalizing s with
  | nil => simp [Along, run]
  | cons i is ih => simp [Along, run, ih, and_assoc]

theorem along_mono (P Q : ι → σ → Prop) (hpq : ∀ i s, P i s → Q i s) (is : List ι) (s : σ)
    (h : Along step P is s) : Along step Q is s := by
  induction is generalizing s with
  | nil => trivial
  | cons i is ih => exact ⟨hpq i s h.1,ih _ h.2⟩

theorem along_and (P Q : ι → σ → Prop) (is : List ι) (s : σ) (hp : Along step P is s)
    (hq : Along step Q is s) : Along step (fun i t => P i t ∧ Q i t) is s := by
  induction is generalizing s with
  | nil => trivial
  | cons i is ih => exact ⟨⟨hp.1,hq.1⟩,ih _ hp.2 hq.2⟩

theorem along_inputs (Q : ι → Prop) (is : List ι) (s : σ) (h : ∀ i ∈ is, Q i) :
    Along step (fun i _ => Q i) is s := by
  induction is generalizing s with
  | nil => trivial
  | cons i is ih => exact ⟨h i (by simp),ih _ (fun j hj => h j (by simp [hj]))⟩

theorem along_members (P : ι → σ → Prop) (Q : ι → Prop) (is : List ι) (s : σ)
    (h : Along step P is s) (hq : ∀ i ∈ is, Q i) :
    Along step (fun i t => P i t ∧ Q i) is s :=
  along_and step P _ is s h (along_inputs step Q is s hq)

/-- A property which the steps keep, as long as they meet `P`, holds of the
state reached. -/
theorem run_invariant (P : ι → σ → Prop) (I : σ → Prop)
    (keep : ∀ i s, P i s → I s → I (step i s)) (is : List ι) (s : σ)
    (h : Along step P is s) (hs : I s) : I (run step is s) := by
  induction is generalizing s with
  | nil => exact hs
  | cons i is ih => exact ih _ h.2 (keep i s h.1 hs)

theorem run_always (I : σ → Prop) (keep : ∀ i s, I s → I (step i s))
    (is : List ι) (s : σ) (hs : I s) : I (run step is s) := by
  induction is generalizing s with
  | nil => exact hs
  | cons i is ih => exact ih _ (keep i s hs)

theorem throughout_invariant (P : ι → σ → Prop) (I : σ → Prop)
    (keep : ∀ i s, P i s → I s → I (step i s)) (is : List ι) (s : σ)
    (h : Along step P is s) (hs : I s) : Throughout step I is s := by
  induction is generalizing s with
  | nil => exact hs
  | cons i is ih => exact ⟨hs,ih _ h.2 (keep i s h.1 hs)⟩

theorem along_invariant (P : ι → σ → Prop) (I : σ → Prop) (Q : ι → σ → Prop)
    (keep : ∀ i s, P i s → I s → I (step i s)) (show' : ∀ i s, P i s → I s → Q i s)
    (is : List ι) (s : σ) (h : Along step P is s) (hs : I s) : Along step Q is s := by
  induction is generalizing s with
  | nil => trivial
  | cons i is ih => exact ⟨show' i s h.1 hs,ih _ h.2 (keep i s h.1 hs)⟩

/-- Two step properties hold along the same runs when they agree at every
step that an invariant allows, and the invariant survives the steps they admit. -/
theorem along_exchange (P Q : ι → σ → Prop) (I : σ → Prop)
    (same : ∀ i s, I s → (P i s ↔ Q i s)) (keep : ∀ i s, P i s → I s → I (step i s))
    (is : List ι) (s : σ) (hs : I s) : Along step P is s ↔ Along step Q is s := by
  induction is generalizing s with
  | nil => rfl
  | cons i is ih =>
    constructor
    · intro h
      exact ⟨(same i s hs).mp h.1,(ih _ (keep i s h.1 hs)).mp h.2⟩
    · intro h
      have hp := (same i s hs).mpr h.1
      exact ⟨hp,(ih _ (keep i s hp hs)).mpr h.2⟩

theorem throughout_iff_along (Q : σ → Prop) (is : List ι) (s : σ) :
    Throughout step Q is s ↔ Q s ∧ Along step (fun i t => Q (step i t)) is s := by
  induction is generalizing s with
  | nil => simp [Throughout, Along]
  | cons i is ih => simp [Throughout, Along, ih]

theorem throughout_first (Q : σ → Prop) (is : List ι) (s : σ)
    (h : Throughout step Q is s) : Q s := by
  cases is with
  | nil => exact h
  | cons i is => exact h.1

theorem throughout_last (Q : σ → Prop) (is : List ι) (s : σ)
    (h : Throughout step Q is s) : Q (run step is s) := by
  induction is generalizing s with
  | nil => exact h
  | cons i is ih => exact ih _ h.2

theorem throughout_mono (P Q : σ → Prop) (hpq : ∀ s, P s → Q s) (is : List ι) (s : σ)
    (h : Throughout step P is s) : Throughout step Q is s := by
  induction is generalizing s with
  | nil => exact hpq s h
  | cons i is ih => exact ⟨hpq s h.1,ih _ h.2⟩

end Single

theorem trace_related {ο : Type*} (step : ι → σ → σ) (out : σ → σ → ο) (R : σ → σ → Prop)
    (keep : ∀ i s t, R s t → R (step i s) (step i t) ∧ out s (step i s) = out t (step i t))
    (is : List ι) (s t : σ) (h : R s t) : trace step out is s = trace step out is t := by
  induction is generalizing s t with
  | nil => rfl
  | cons i is ih =>
    obtain ⟨hr,ho⟩ := keep i s t h
    rw [trace, trace, ho, ih _ _ hr]

end Swindle.MachineRuns
