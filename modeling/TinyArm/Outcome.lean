import TinyArm.Failure

/-!
# Outcomes

The outcome of a run that works on a state: the state that it leaves, also when it fails, and the failure if there is
one.
-/

namespace TinyArm

/-- The state that a run leaves, and whether the run has failed. -/
abbrev Outcome (σ : Type) := σ × Except Failure Unit

/-- The state that a run leaves if it has not failed. -/
def Outcome.result {σ : Type} (r : Outcome σ) : Except Failure σ := r.2.map fun () => r.1

/-- Goes on from the state that a run leaves, unless the run has failed. -/
def Outcome.andThen {σ : Type} (r : Outcome σ) (next : σ → Outcome σ) : Outcome σ :=
  match r.2 with
  | .ok () => next r.1
  | .error f => (r.1, .error f)

/-- A failed run goes no further. -/
theorem Outcome.andThen_of_error {σ : Type} {r : Outcome σ} {f : Failure} (h : r.2 = .error f)
    (next : σ → Outcome σ) : r.andThen next = r := by
  obtain ⟨s, _ | _⟩ := r
  · rfl
  · cases h

theorem Outcome.result_andThen {σ : Type} (r : Outcome σ) (next : σ → Outcome σ) :
    (r.andThen next).result = r.result.bind fun s => (next s).result := by
  obtain ⟨s, _ | _⟩ := r <;> rfl

end TinyArm
