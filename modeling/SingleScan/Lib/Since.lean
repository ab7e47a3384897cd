import Mathlib.Algebra.BigOperators.Group.Finset.Basic
import Mathlib.Order.Nat

/-!
# The last event, and what has happened since

An event happens at some of the clocks. `Last` names the last one up to a clock, `Toggled` is the event
that a bit changes, and `since` is the set of the events behind the last reset. A register that adds up
events and goes back to zero with a reset holds the sum over `since`.
-/

namespace Clocked

/-- The last event up to clock `c` is that of clock `d`. -/
structure Last (p : ℕ → Prop) (d c : ℕ) : Prop where
  event : p d
  le : d ≤ c
  none : ∀ e, d < e → e ≤ c → ¬ p e

section Last

variable {p : ℕ → Prop} {c d : ℕ}

theorem Last.now (h : p c) : Last p c c := ⟨h, le_rfl, fun e hlt hle => by omega⟩

theorem Last.next (h : Last p d c) (hnone : ¬ p (c + 1)) : Last p d (c + 1) where
  event := h.event
  le := Nat.le_succ_of_le h.le
  none e hlt hle := by
    rcases Nat.lt_or_eq_of_le hle with hbefore | rfl
    · exact h.none e hlt (by omega)
    · exact hnone

/-- Up to a clock there is a last event or none at all. -/
theorem last_or_none (p : ℕ → Prop) (c : ℕ) : (∀ e ≤ c, ¬ p e) ∨ ∃ d, Last p d c := by
  induction c with
  | zero =>
      by_cases hp : p 0
      · exact .inr ⟨0, .now hp⟩
      · exact .inl fun e he => by rwa [Nat.le_zero.mp he]
  | succ c ih =>
      by_cases hp : p (c + 1)
      · exact .inr ⟨c + 1, .now hp⟩
      · rcases ih with hnone | ⟨d, hd⟩
        · refine .inl fun e he => ?_
          rcases Nat.lt_or_eq_of_le he with hlt | rfl
          · exact hnone e (by omega)
          · exact hp
        · exact .inr ⟨d, hd.next hp⟩

theorem Last.unique {e : ℕ} (h : Last p d c) (h' : Last p e c) : d = e := by
  rcases Nat.lt_trichotomy d e with hlt | heq | hgt
  · exact absurd h'.event (h.none e hlt h'.le)
  · exact heq
  · exact absurd h.event (h'.none d hgt h.le)

end Last

/-- The bit differs from the clock before. -/
def Toggled (bit : ℕ → Bool) : ℕ → Prop
  | 0 => False
  | c + 1 => bit (c + 1) ≠ bit c

theorem not_toggled_zero (bit : ℕ → Bool) : ¬ Toggled bit 0 := id

theorem eq_of_not_toggled {bit : ℕ → Bool} {c d : ℕ} (hle : c ≤ d)
    (hnone : ∀ e, c < e → e ≤ d → ¬ Toggled bit e) : bit d = bit c := by
  induction d, hle using Nat.le_induction with
  | base => rfl
  | succ d hle ih =>
      have hkeep : bit (d + 1) = bit d := not_not.mp (hnone (d + 1) (by omega) le_rfl)
      rw [hkeep, ih fun e hlt hle => hnone e hlt (by omega)]

section Since

/-- The clocks before `c` at which `hit` happened and `reset` has not happened since. -/
noncomputable def since (hit reset : ℕ → Prop) (c : ℕ) : Finset ℕ := by
  classical
  exact (Finset.range c).filter fun d => hit d ∧ ∀ e, d ≤ e → e < c → ¬ reset e

variable {hit reset : ℕ → Prop} {c d : ℕ}

theorem mem_since : d ∈ since hit reset c ↔ d < c ∧ hit d ∧ ∀ e, d ≤ e → e < c → ¬ reset e := by
  unfold since
  simp only [Finset.mem_filter, Finset.mem_range]

theorem since_zero : since hit reset 0 = ∅ := by
  ext d
  simp [mem_since]

theorem since_succ_of_reset (h : reset c) : since hit reset (c + 1) = ∅ := by
  ext d
  rw [mem_since, iff_false_right (Finset.notMem_empty d)]
  rintro ⟨hlt, -, hnone⟩
  exact hnone c (by omega) (Nat.lt_succ_self c) h

theorem since_succ_of_hit (hreset : ¬ reset c) (hhit : hit c) :
    since hit reset (c + 1) = insert c (since hit reset c) := by
  ext d
  rw [Finset.mem_insert, mem_since, mem_since]
  constructor
  · rintro ⟨hlt, hd, hnone⟩
    rcases Nat.eq_or_lt_of_le (Nat.le_of_lt_succ hlt) with rfl | hbefore
    · exact .inl rfl
    · exact .inr ⟨hbefore, hd, fun e hle he => hnone e hle (by omega)⟩
  · rintro (rfl | ⟨hlt, hd, hnone⟩)
    · refine ⟨Nat.lt_succ_self d, hhit, fun e hle he => ?_⟩
      obtain rfl : e = d := by omega
      exact hreset
    · refine ⟨by omega, hd, fun e hle he => ?_⟩
      rcases Nat.eq_or_lt_of_le (Nat.le_of_lt_succ he) with rfl | hbefore
      · exact hreset
      · exact hnone e hle hbefore

theorem since_succ_of_not (hreset : ¬ reset c) (hhit : ¬ hit c) :
    since hit reset (c + 1) = since hit reset c := by
  ext d
  rw [mem_since, mem_since]
  constructor
  · rintro ⟨hlt, hd, hnone⟩
    have hne : d ≠ c := fun h => hhit (h ▸ hd)
    exact ⟨by omega, hd, fun e hle he => hnone e hle (by omega)⟩
  · rintro ⟨hlt, hd, hnone⟩
    refine ⟨by omega, hd, fun e hle he => ?_⟩
    rcases Nat.eq_or_lt_of_le (Nat.le_of_lt_succ he) with rfl | hbefore
    · exact hreset
    · exact hnone e hle hbefore

/-- **The rule for a register that adds up.** -/
theorem eq_sum_since (y f : ℕ → ℕ) (hzero : y 0 = 0) (hreset : ∀ c, reset c → y (c + 1) = 0)
    (hhit : ∀ c, ¬ reset c → hit c → y (c + 1) = y c + f c)
    (hkeep : ∀ c, ¬ reset c → ¬ hit c → y (c + 1) = y c) (c : ℕ) :
    y c = ∑ d ∈ since hit reset c, f d := by
  induction c with
  | zero => rw [hzero, since_zero, Finset.sum_empty]
  | succ c ih =>
      by_cases hr : reset c
      · rw [hreset c hr, since_succ_of_reset hr, Finset.sum_empty]
      · by_cases hh : hit c
        · have hnew : c ∉ since hit reset c := fun h => lt_irrefl c (mem_since.mp h).1
          rw [hhit c hr hh, since_succ_of_hit hr hh, Finset.sum_insert hnew, ih, Nat.add_comm]
        · rw [hkeep c hr hh, since_succ_of_not hr hh, ih]

end Since

end Clocked
