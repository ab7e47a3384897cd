import SingleScan.Lib.Samples
import SingleScan.Lib.Trace
import SingleScan.Motor

/-!
# The filter of the reading head

A state of the filter stands for the level of its output and for the number of the last samples that
were different from it. The two states `IDLE` and `LOW` stand for the same.
-/

namespace SingleScan.FilterSignal

open Clocked Sampled

/-- The level of `data_out` in a state. -/
def Phase.level : Phase → Bool
  | .high | .high2low | .high2lowAck0 | .high2lowAck1 | .high2lowAck2 => true
  | _ => false

/-- How many samples in a row have been different from the level. -/
def Phase.against : Phase → ℕ
  | .idle | .low | .high => 0
  | .low2high | .high2low => 1
  | .low2highAck0 | .high2lowAck0 => 2
  | .low2highAck1 | .high2lowAck1 => 3
  | .low2highAck2 | .high2lowAck2 => 4

theorem sample_level (cs : Phase) :
    (cs.sample cs.level).level = cs.level ∧ (cs.sample cs.level).against = 0 := by
  cases cs <;> decide

/-- A sample against the level: the fifth in a row is taken over. -/
theorem sample_against (cs : Phase) :
    (cs.sample !cs.level).level = (if cs.against = 4 then !cs.level else cs.level) ∧
      (cs.sample !cs.level).against = if cs.against = 4 then 0 else cs.against + 1 := by
  cases cs <;> decide

theorem step_dataOut {s : State} (h : s.dataOut = s.cs.level) (dataIn : Bool) :
    (step s dataIn).dataOut = (step s dataIn).cs.level := by
  obtain ⟨r0, r1, timeCnt, cs, dataOut⟩ := s
  change dataOut = cs.level at h
  subst h
  unfold step State.ns
  generalize (State.timeFlag _) = flag
  cases flag <;> cases cs <;> cases r1 <;> rfl

section Run

def run (input : ℕ → Bool) (t : ℕ) : State := trace step State.reset input t

/-- `data_in_r1` where a sample is taken. -/
def sampled (s : State) (_ : Bool) : Option Bool := if s.timeFlag then some s.dataInR1 else none

/-- The samples in the clocks before `t`. -/
def samples (input : ℕ → Bool) (t : ℕ) : List Bool := logged step State.reset input sampled 0 t

theorem samples_succ (input : ℕ → Bool) (t : ℕ) :
    samples input (t + 1) = samples input t ++
      if (run input t).timeFlag then [(run input t).dataInR1] else [] := by
  unfold samples run
  rw [logged_succ, Nat.zero_add, sampled]
  cases (trace step State.reset input t).timeFlag <;> rfl

/-- What the state says about the samples so far. -/
structure Follows (s : State) (xs : List Bool) : Prop where
  dataOut : s.dataOut = s.cs.level
  against : streak (!s.cs.level) xs = s.cs.against

theorem follows_step {s : State} {xs : List Bool} (h : Follows s xs) (dataIn : Bool) :
    Follows (step s dataIn) (xs ++ if s.timeFlag then [s.dataInR1] else []) := by
  refine ⟨step_dataOut h.dataOut dataIn, ?_⟩
  have hcs : (step s dataIn).cs = s.ns := rfl
  rw [hcs, State.ns]
  cases hflag : s.timeFlag with
  | false =>
      simp only [Bool.false_eq_true, if_false, List.append_nil]
      exact h.against
  | true =>
      simp only [if_true]
      rw [streak_concat]
      rcases Bool.eq_or_eq_not s.dataInR1 s.cs.level with hx | hx
      · obtain ⟨hlevel, hagainst⟩ := sample_level s.cs
        rw [hx, hlevel, hagainst, if_neg (by simp)]
      · obtain ⟨hlevel, hagainst⟩ := sample_against s.cs
        rw [hx, hlevel, hagainst]
        by_cases hfour : s.cs.against = 4
        · simp [hfour]
        · simp [hfour, h.against]

theorem follows_run (input : ℕ → Bool) (t : ℕ) : Follows (run input t) (samples input t) := by
  induction t with
  | zero => exact ⟨rfl, streak_nil _⟩
  | succ t ih =>
      rw [samples_succ]
      exact follows_step ih (input t)

end Run

end SingleScan.FilterSignal
