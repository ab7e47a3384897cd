import Mathlib.Data.List.Basic

/-!
# Words on a valid/data bus

A sender puts one word at a time on a bus and leaves at least one quiet clock behind each of them;
what the data lines carry on a quiet clock is arbitrary. `Spaced` relates the words to the clocks,
and `Spaced.simulate` is the rule by which a receiver is verified: it is enough to say what one
quiet clock and what one word do to a relation between the receiver and an abstract reader that
only sees the words.
-/

namespace Clocked

variable {α σ A : Type}

/-- One clock of a valid/data bus. -/
structure Bus (α : Type) where
  valid : Bool
  data : α
deriving DecidableEq, Repr

/-- The words `ws` cross the bus in order, each with a quiet clock behind it. The flag says that the
clock before the first one carried a word. -/
inductive Spaced : Bool → List α → List (Bus α) → Prop
  | done : Spaced false [] []
  | quiet {b : Bool} {d : α} {ws : List α} {bus : List (Bus α)} :
      Spaced false ws bus → Spaced b ws (⟨false, d⟩ :: bus)
  | word {w : α} {ws : List α} {bus : List (Bus α)} :
      Spaced true ws bus → Spaced false (w :: ws) (⟨true, w⟩ :: bus)

/-- The tightest schedule: one quiet clock behind each word. -/
def tight (d : α) (ws : List α) : List (Bus α) :=
  ws.flatMap fun w => [⟨true, w⟩, ⟨false, d⟩]

theorem spaced_tight (d : α) (ws : List α) : Spaced false ws (tight d ws) := by
  induction ws with
  | nil => exact .done
  | cons w ws ih => exact .word (.quiet ih)

/-- The words an abstract reader expects, one after the other. -/
def Expects (next : A → α → Prop) (take : A → α → A) : A → List α → Prop
  | _, [] => True
  | a, w :: ws => next a w ∧ Expects next take (take a w) ws

/-- **The simulation rule.** A relation that survives a quiet clock, and follows the reader over each
word it expects, relates the receiver after the whole stream to the reader after all its words. -/
theorem Spaced.simulate {Rel : Bool → A → σ → Prop} {next : A → α → Prop} {take : A → α → A}
    {step : σ → Bus α → σ}
    (hquiet : ∀ {b a s} d, Rel b a s → Rel false a (step s ⟨false, d⟩))
    (hword : ∀ {a s} w, Rel false a s → next a w → Rel true (take a w) (step s ⟨true, w⟩))
    {b : Bool} {ws : List α} {bus : List (Bus α)} (hbus : Spaced b ws bus) :
    ∀ {a s}, Rel b a s → Expects next take a ws →
      Rel false (ws.foldl take a) (bus.foldl step s) := by
  induction hbus with
  | done => intro a s hrel _; exact hrel
  | quiet _ ih =>
      intro a s hrel hexpects
      exact ih (hquiet _ hrel) hexpects
  | word _ ih =>
      intro a s hrel hexpects
      exact ih (hword _ hrel hexpects.1) hexpects.2

end Clocked
