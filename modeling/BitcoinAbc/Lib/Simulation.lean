import Mathlib

/-!
# Forward simulation of a machine driven by operations

A machine takes operations one at a time, may fail, and answers each
operation (`step`). It refines an abstract machine (`spec`), which never
fails but may forbid operations in some of its states (`pre`), when an
abstraction function maps every step of the first from a state of its
invariant onto the step of the second, with the same answer
(`StepRefines`). `run_refines` lifts that to every list of operations the
abstract machine allows: the concrete run does not fail, keeps the invariant,
and answers as the abstract run does.
-/

namespace Simulation

universe u v w x y

variable {σ : Type u} {α : Type v} {ω : Type w} {ρ : Type x} {ε : Type y}

/-- Run the operations one after the other; the first failure ends the run. -/
def run (step : σ → ω → Except ε (σ × ρ)) : σ → List ω → Except ε (σ × List ρ)
  | s, [] => .ok (s, [])
  | s, op :: ops =>
    match step s op with
    | .error e => .error e
    | .ok (s', r) =>
      match run step s' ops with
      | .error e => .error e
      | .ok (s'', rs) => .ok (s'', r :: rs)

/-- The run of the abstract machine. -/
def runSpec (spec : α → ω → α × ρ) : α → List ω → α × List ρ
  | a, [] => (a, [])
  | a, op :: ops => ((runSpec spec (spec a op).1 ops).1, (spec a op).2 :: (runSpec spec (spec a op).1 ops).2)

/-- Every operation of the list is allowed in the abstract state reached
before it. -/
def Admissible (pre : α → ω → Prop) (spec : α → ω → α × ρ) : α → List ω → Prop
  | _, [] => True
  | a, op :: ops => pre a op ∧ Admissible pre spec (spec a op).1 ops

section Refinement

variable (step : σ → ω → Except ε (σ × ρ)) (spec : α → ω → α × ρ) (pre : α → ω → Prop)
  (abs : σ → α) (Inv : σ → Prop)

/-- From a state of the invariant, an allowed operation succeeds, keeps the
invariant, and does what the abstract machine does. -/
def StepRefines : Prop :=
  ∀ s op, Inv s → pre (abs s) op →
    ∃ s' r, step s op = .ok (s', r) ∧ Inv s' ∧ spec (abs s) op = (abs s', r)

variable {step spec pre abs Inv}

theorem run_refines (h : StepRefines step spec pre abs Inv) :
    ∀ (ops : List ω) (s : σ), Inv s → Admissible pre spec (abs s) ops →
      ∃ s' rs, run step s ops = .ok (s', rs) ∧ Inv s' ∧
        runSpec spec (abs s) ops = (abs s', rs)
  | [], s, hs, _ => ⟨s, [], rfl, hs, rfl⟩
  | op :: ops, s, hs, ⟨hpre, hadm⟩ => by
    obtain ⟨s', r, hstep, hs', hspec⟩ := h s op hs hpre
    rw [hspec] at hadm
    obtain ⟨s'', rs, hrun, hs'', hrest⟩ := run_refines h ops s' hs' hadm
    refine ⟨s'', r :: rs, ?_, hs'', ?_⟩
    · simp only [run, hstep, hrun]
    · simp only [runSpec, hspec, hrest]

end Refinement

/-! ## Simulation through an encoding

When the machine keeps less than the abstract state (a summary of it), no
function maps its states onto the abstract ones; instead each abstract state
has the machine state that encodes it (`enc`). The machine then refines the
abstract one when, from the encoding of an abstract state of the invariant `I`,
every allowed operation steps to the encoding of the abstract successor with
the same answer. -/

section Encoding

variable (step : σ → ω → Except ε (σ × ρ)) (spec : α → ω → α × ρ) (pre : α → ω → Prop)
  (enc : α → σ) (I : α → Prop)

/-- An allowed operation keeps `I` and commutes with the encoding. -/
def StepEncodes : Prop :=
  ∀ a op, I a → pre a op →
    I (spec a op).1 ∧ step (enc a) op = .ok (enc (spec a op).1, (spec a op).2)

variable {step spec pre enc I}

theorem run_encodes (h : StepEncodes step spec pre enc I) :
    ∀ (ops : List ω) (a : α), I a → Admissible pre spec a ops →
      I (runSpec spec a ops).1 ∧
        run step (enc a) ops = .ok (enc (runSpec spec a ops).1, (runSpec spec a ops).2)
  | [], a, ha, _ => ⟨ha, rfl⟩
  | op :: ops, a, ha, ⟨hpre, hadm⟩ => by
    obtain ⟨ha', hstep⟩ := h a op ha hpre
    obtain ⟨hI, hrun⟩ := run_encodes h ops (spec a op).1 ha' hadm
    refine ⟨hI, ?_⟩
    simp only [run, runSpec, hstep, hrun]

end Encoding

end Simulation
