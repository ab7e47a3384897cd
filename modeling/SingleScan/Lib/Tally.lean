import Mathlib.Algebra.Order.Interval.Finset.SuccPred
import Mathlib.Data.Finset.Card
import Mathlib.Data.Nat.SuccPred
import Mathlib.Order.Interval.Finset.Nat

/-!
# Counting the clocks of an event

`tally p a b` is the number of the clocks `a`, …, `b - 1` at which `p` happens.
-/

namespace Clocked

def tally (p : ℕ → Bool) (a b : ℕ) : ℕ := ((Finset.Ico a b).filter fun t => p t = true).card

variable {p : ℕ → Bool} {a b c : ℕ}

@[simp]
theorem tally_self (p : ℕ → Bool) (a : ℕ) : tally p a a = 0 := by
  rw [tally, Finset.Ico_self, Finset.filter_empty, Finset.card_empty]

theorem tally_succ_of_event (hab : a ≤ b) (h : p b = true) :
    tally p a (b + 1) = tally p a b + 1 := by
  have hnew : b ∉ (Finset.Ico a b).filter fun t => p t = true := by simp
  rw [tally, ← Finset.insert_Ico_right_eq_Ico_add_one hab, Finset.filter_insert, if_pos h,
    Finset.card_insert_of_notMem hnew, tally]

theorem tally_succ_of_not (hab : a ≤ b) (h : p b = false) :
    tally p a (b + 1) = tally p a b := by
  rw [tally, ← Finset.insert_Ico_right_eq_Ico_add_one hab, Finset.filter_insert,
    if_neg (by simp [h]), tally]

theorem tally_add (p : ℕ → Bool) (hab : a ≤ b) (hbc : b ≤ c) :
    tally p a b + tally p b c = tally p a c := by
  induction c, hbc using Nat.le_induction with
  | base => rw [tally_self, Nat.add_zero]
  | succ c hbc ih =>
      cases h : p c with
      | true =>
          rw [tally_succ_of_event hbc h, tally_succ_of_event (hab.trans hbc) h, ← ih]
          rfl
      | false => rw [tally_succ_of_not hbc h, tally_succ_of_not (hab.trans hbc) h, ih]

theorem tally_mono (p : ℕ → Bool) (a : ℕ) (hbc : b ≤ c) : tally p a b ≤ tally p a c :=
  Finset.card_le_card (Finset.filter_subset_filter _ (Finset.Ico_subset_Ico_right hbc))

theorem tally_pos_iff : 0 < tally p a b ↔ ∃ t, a ≤ t ∧ t < b ∧ p t = true := by
  rw [tally, Finset.card_pos]
  constructor
  · rintro ⟨t, ht⟩
    rw [Finset.mem_filter, Finset.mem_Ico] at ht
    exact ⟨t, ht.1.1, ht.1.2, ht.2⟩
  · rintro ⟨t, hat, htb, hp⟩
    exact ⟨t, Finset.mem_filter.2 ⟨Finset.mem_Ico.2 ⟨hat, htb⟩, hp⟩⟩

theorem tally_eq_zero_iff : tally p a b = 0 ↔ ∀ t, a ≤ t → t < b → p t = false := by
  rw [← Nat.le_zero, ← not_lt, tally_pos_iff]
  constructor
  · intro hnone t hat htb
    exact Bool.eq_false_iff.2 fun hp => hnone ⟨t, hat, htb, hp⟩
  · rintro hnone ⟨t, hat, htb, hp⟩
    exact Bool.false_ne_true (hnone t hat htb ▸ hp)

end Clocked
