import Mathlib.Data.Finset.Card
import Mathlib.Data.Nat.Find
import Mathlib.Logic.Function.Iterate

/-!
# Walks through a bounded space

A deterministic walk moves from `a` to `f a` until it stands on a goal. If it stays in a finite set
until then, it visits no element twice, so its length is bounded by the size of the set and a
bounded search decides whether it arrives.
-/

namespace SingleScan

namespace Walk

variable {α : Type*} (f : α → α) (inside goal : α → Bool)

/-- The walk from `a` arrives at a goal, and everything it passes before is inside. -/
def Arrives (a : α) : Prop := ∃ n, goal (f^[n] a) = true ∧ ∀ i < n, inside (f^[i] a) = true

/-- The walk from `a` arrives in fewer than the given number of moves. -/
def arrivesWithin : ℕ → α → Bool
  | 0, _ => false
  | bound + 1, a => goal a || (inside a && arrivesWithin bound (f a))

variable {f inside goal}

theorem arrives_here {a : α} (hgoal : goal a = true) : Arrives f inside goal a :=
  ⟨0, hgoal, by intro i hi; omega⟩

theorem arrives_step {a : α} (hinside : inside a = true) (hrest : Arrives f inside goal (f a)) :
    Arrives f inside goal a := by
  obtain ⟨n, hgoal, hbefore⟩ := hrest
  refine ⟨n + 1, hgoal, ?_⟩
  intro i hi
  cases i with
  | zero => exact hinside
  | succ i => exact hbefore i (by omega)

theorem arrives_of_arrivesWithin {bound : ℕ} {a : α}
    (hwithin : arrivesWithin f inside goal bound a = true) : Arrives f inside goal a := by
  induction bound generalizing a with
  | zero => cases hwithin
  | succ bound ih =>
      rw [arrivesWithin, Bool.or_eq_true, Bool.and_eq_true] at hwithin
      obtain hgoal | ⟨hinside, hrest⟩ := hwithin
      · exact arrives_here hgoal
      · exact arrives_step hinside (ih hrest)

theorem arrivesWithin_of_lt {n : ℕ} {a : α} (hgoal : goal (f^[n] a) = true)
    (hbefore : ∀ i < n, inside (f^[i] a) = true) {bound : ℕ} (hbound : n < bound) :
    arrivesWithin f inside goal bound a = true := by
  induction n generalizing a bound with
  | zero =>
      obtain ⟨bound, rfl⟩ := Nat.exists_eq_add_of_lt hbound
      have hhere : goal a = true := hgoal
      simp [arrivesWithin, hhere]
  | succ n ih =>
      obtain ⟨bound, rfl⟩ := Nat.exists_eq_succ_of_ne_zero (Nat.ne_of_gt (Nat.zero_lt_of_lt hbound))
      have hinside : inside a = true := hbefore 0 (by omega)
      have hrest := ih (a := f a) hgoal (fun i hi => hbefore (i + 1) (by omega))
        (Nat.lt_of_succ_lt_succ hbound)
      simp [arrivesWithin, hinside, hrest]

/-- Before its first goal a walk visits no element twice. -/
theorem iterate_injOn {n : ℕ} {a : α} (hgoal : goal (f^[n] a) = true)
    (hfirst : ∀ i < n, goal (f^[i] a) = false) :
    Set.InjOn (fun i => f^[i] a) (Finset.range n : Set ℕ) := by
  have hne : ∀ i j, i < j → j < n → f^[i] a ≠ f^[j] a := by
    intro i j hij hj heq
    -- a walk that returns keeps as far from the goal as it was
    have hshift : f^[n - j + i] a = f^[n] a := by
      calc f^[n - j + i] a = f^[n - j] (f^[i] a) := Function.iterate_add_apply f _ _ a
        _ = f^[n - j] (f^[j] a) := by rw [heq]
        _ = f^[n] a := by rw [← Function.iterate_add_apply, Nat.sub_add_cancel hj.le]
    have hearly := hfirst (n - j + i) (by omega)
    rw [hshift, hgoal] at hearly
    cases hearly
  intro i hi j hj heq
  rw [Finset.mem_coe, Finset.mem_range] at hi hj
  obtain hlt | rfl | hlt := Nat.lt_trichotomy i j
  · exact absurd heq (hne i j hlt hj)
  · rfl
  · exact absurd heq.symm (hne j i hlt hi)

theorem length_le_card {n : ℕ} {a : α} {space : Finset α} (hgoal : goal (f^[n] a) = true)
    (hfirst : ∀ i < n, goal (f^[i] a) = false) (hspace : ∀ i < n, f^[i] a ∈ space) :
    n ≤ space.card := by
  calc n = (Finset.range n).card := (Finset.card_range n).symm
    _ ≤ space.card := Finset.card_le_card_of_injOn (fun i => f^[i] a)
        (fun i hi => hspace i (Finset.mem_range.mp hi)) (iterate_injOn hgoal hfirst)

/-- Whether a walk arrives is decided by as many moves as there are elements inside. -/
theorem arrives_iff {space : Finset α} {bound : ℕ} (hspace : ∀ a, inside a = true → a ∈ space)
    (hbound : space.card ≤ bound) (a : α) :
    Arrives f inside goal a ↔ arrivesWithin f inside goal (bound + 1) a = true := by
  constructor
  · intro ⟨n, hgoal, hbefore⟩
    have hexists : ∃ n, goal (f^[n] a) = true := ⟨n, hgoal⟩
    have hle : Nat.find hexists ≤ n := Nat.find_le hgoal
    have hlength : Nat.find hexists ≤ space.card :=
      length_le_card (Nat.find_spec hexists)
        (fun i hi => Bool.eq_false_iff.mpr (Nat.find_min hexists hi))
        (fun i hi => hspace _ (hbefore i (by omega)))
    exact arrivesWithin_of_lt (Nat.find_spec hexists) (fun i hi => hbefore i (by omega))
      (Nat.lt_succ_of_le (hlength.trans hbound))
  · exact arrives_of_arrivesWithin

end Walk

end SingleScan
