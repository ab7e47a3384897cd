import Mathlib.Data.List.Basic

/-!
# Runs of a machine

A machine moves by `on` for each event that happens. `Along` says that every step of a run meets a
condition, `Sometime` that some step does. What is shown of one step is carried to the whole run by
`Along.invariant`, and a simulation of a specification by `Along.simulate`.
-/

namespace Machine

variable {σ ε : Type*} (on : σ → ε → σ)

/-- The condition holds at every step. -/
def Along (P : σ → ε → Prop) : σ → List ε → Prop
  | _, [] => True
  | s, event :: events => P s event ∧ Along P (on s event) events

/-- The condition holds at some step. -/
def Sometime (P : σ → ε → Prop) : σ → List ε → Prop
  | _, [] => False
  | s, event :: events => P s event ∨ Sometime P (on s event) events

instance Along.instDecidable {P : σ → ε → Prop} [test : ∀ s event, Decidable (P s event)] :
    ∀ s events, Decidable (Along on P s events)
  | _, [] => isTrue trivial
  | s, event :: events =>
      @instDecidableAnd _ _ (test s event) (Along.instDecidable (on s event) events)

variable {on}

/-- **The invariant rule.** -/
theorem Along.invariant {Inv : σ → Prop} {P : σ → ε → Prop}
    (hstep : ∀ s event, Inv s → P s event → Inv (on s event)) {s : σ} {events : List ε}
    (halong : Along on P s events) (hstart : Inv s) : Inv (events.foldl on s) := by
  induction events generalizing s with
  | nil => exact hstart
  | cons event events ih => exact ih halong.2 (hstep s event hstart halong.1)

/-- **The rule with a record.** `Inv` relates the state to a value, and `note` holds of the value once a
step has met the second condition, and not before. -/
theorem Along.record {α : Type*} {Inv : σ → α → Prop} {note : α → Prop} {P Q : σ → ε → Prop}
    (hstep : ∀ s event a, Inv s a → P s event →
      ∃ a', Inv (on s event) a' ∧ (note a' ↔ note a ∨ Q s event))
    {s : σ} {events : List ε} (halong : Along on P s events) {a : α} (hstart : Inv s a) :
    ∃ a', Inv (events.foldl on s) a' ∧ (note a' ↔ note a ∨ Sometime on Q s events) := by
  induction events generalizing s a with
  | nil => exact ⟨a, hstart, (or_iff_left not_false).symm⟩
  | cons event events ih =>
      obtain ⟨a₁, hinv, hfirst⟩ := hstep s event a hstart halong.1
      obtain ⟨a', hend, hrest⟩ := ih halong.2 hinv
      refine ⟨a', hend, ?_⟩
      rw [hrest, hfirst, or_assoc]
      rfl

theorem Along.append_iff {P : σ → ε → Prop} {s : σ} {left right : List ε} :
    Along on P s (left ++ right) ↔ Along on P s left ∧ Along on P (left.foldl on s) right := by
  induction left generalizing s with
  | nil => exact (and_iff_right trivial).symm
  | cons event left ih =>
      rw [List.cons_append, Along, Along, ih, and_assoc]
      rfl

/-! ### Specifications -/

variable {τ δ β : Type*} {step : τ → δ → Option (Option β × τ)} {out : σ → ε → Option β}

/-- The values that the steps return. -/
def outputs (on : σ → ε → σ) (out : σ → ε → Option β) : σ → List ε → List β
  | _, [] => []
  | s, event :: events => (out s event).toList ++ outputs on out (on s event) events

/-- The run of a specification, which may refuse a step: what it returns, and where it ends. -/
def runSpec (step : τ → δ → Option (Option β × τ)) : τ → List δ → Option (List β × τ)
  | a, [] => some ([], a)
  | a, event :: events =>
      (step a event).bind fun (x, a') =>
        (runSpec step a' events).map fun (xs, a'') => (x.toList ++ xs, a'')

theorem runSpec_cons {a a' : τ} {event : δ} {events : List δ} {x : Option β}
    (h : step a event = some (x, a')) :
    runSpec step a (event :: events) =
      (runSpec step a' events).map fun (xs, a'') => (x.toList ++ xs, a'') := by
  rw [runSpec, h, Option.bind_some]

/-- **The simulation rule.** If every step that meets the condition is one of the specification with the
same value, so is every run whose steps meet it. -/
theorem Along.simulate {R : σ → τ → Prop} {P : σ → ε → Prop} {f : ε → δ}
    (hstep : ∀ s event a, R s a → P s event →
      ∃ a', step a (f event) = some (out s event, a') ∧ R (on s event) a')
    {s : σ} {events : List ε} (halong : Along on P s events) {a : τ} (hstart : R s a) :
    ∃ a', runSpec step a (events.map f) = some (outputs on out s events, a') ∧
      R (events.foldl on s) a' := by
  induction events generalizing s a with
  | nil => exact ⟨a, rfl, hstart⟩
  | cons event events ih =>
      obtain ⟨a₁, hfirst, hrel⟩ := hstep s event a hstart halong.1
      obtain ⟨a', hrest, hend⟩ := ih halong.2 hrel
      refine ⟨a', ?_, hend⟩
      rw [List.map_cons, runSpec_cons hfirst, hrest]
      rfl

end Machine
