import Mathlib.Order.Lattice
import Mathlib.Order.Nat

/-!
# The greatest value of a scan

A scan goes through the values `value 0`, `value 1`, … and keeps the greatest one so far with its place.
Some of the values only count as long as the greatest one so far admits them.
-/

namespace Scan

variable {α : Type*} [LinearOrder α] (value : ℕ → α) (admits : ℕ → α → Bool) (start : α)

/-- The greatest of the first `n` values, and its place. It starts with `start` at place 0. -/
def fullest : ℕ → α × ℕ
  | 0 => (start, 0)
  | n + 1 =>
    if (fullest n).1 < value n ∧ admits n (fullest n).1 = true then (value n, n) else fullest n

variable {value admits start}

theorem fullest_mono {m n : ℕ} (hmn : m ≤ n) :
    (fullest value admits start m).1 ≤ (fullest value admits start n).1 := by
  induction n, hmn using Nat.le_induction with
  | base => exact le_rfl
  | succ n _ ih =>
      refine ih.trans ?_
      rw [fullest]
      split
      · rename_i hnext
        exact hnext.1.le
      · exact le_rfl

theorem le_fullest {m n : ℕ} (hmn : m < n)
    (hadmits : admits m (fullest value admits start m).1 = true) :
    value m ≤ (fullest value admits start n).1 := by
  refine le_trans ?_ (fullest_mono hmn)
  rw [fullest]
  split
  · exact le_rfl
  · rename_i hnot
    exact le_of_not_gt fun hlt => hnot ⟨hlt, hadmits⟩

/-- The greatest value is that of its place, unless it is still the one of the start. -/
theorem fullest_place (n : ℕ) :
    fullest value admits start n = (start, 0) ∨
      ∃ m < n, fullest value admits start n = (value m, m) ∧
        admits m (fullest value admits start m).1 = true := by
  induction n with
  | zero => exact .inl rfl
  | succ n ih =>
      rw [fullest]
      split
      · rename_i hnext
        exact .inr ⟨n, Nat.lt_succ_self n, rfl, hnext.2⟩
      · rcases ih with hstart | ⟨m, hm, hplace, hadmits⟩
        · exact .inl hstart
        · exact .inr ⟨m, by omega, hplace, hadmits⟩

theorem fullest_place_lt {n : ℕ} (hn : 0 < n) : (fullest value admits start n).2 < n := by
  have hplaces : fullest value admits start n = (start, 0) ∨ ∃ m < n, _ := fullest_place n
  rcases hplaces with hstart | ⟨m, hm, hplace, -⟩
  · rwa [hstart]
  · rwa [hplace]

/-- If a scan finds a place other than 0, a smaller start finds the same, as long as a value that is not
admitted for a greatest value is admitted neither for greater ones nor later. -/
theorem fullest_of_start {start' : α} (hstart : start' ≤ start)
    (hvalue : ∀ {m : ℕ} {v v' : α}, v' ≤ v → admits m v = true → admits m v' = true)
    (hlater : ∀ {m : ℕ} {v : α}, admits (m + 1) v = true → admits m v = true) (n : ℕ)
    (hplace : (fullest value admits start n).2 ≠ 0) :
    fullest value admits start' n = fullest value admits start n := by
  have hscans : fullest value admits start' n = fullest value admits start n ∨
      (fullest value admits start n).2 = 0 ∧
        ((fullest value admits start' n).1 ≤ (fullest value admits start n).1 ∨
          admits n (fullest value admits start n).1 = false) := by
    clear hplace
    induction n with
    | zero => exact .inr ⟨rfl, .inl hstart⟩
    | succ n ih =>
        rcases ih with hsame | ⟨hzero, hle | hrefused⟩
        · left
          rw [fullest, fullest, hsame]
        · rw [fullest, fullest]
          by_cases htakes : (fullest value admits start n).1 < value n ∧
              admits n (fullest value admits start n).1 = true
          · left
            rw [if_pos htakes, if_pos ⟨hle.trans_lt htakes.1, hvalue hle htakes.2⟩]
          · right
            rw [if_neg htakes]
            refine ⟨hzero, ?_⟩
            by_cases hmore : (fullest value admits start n).1 < value n
            · right
              rw [Bool.eq_false_iff]
              exact fun hadmits => htakes ⟨hmore, hlater hadmits⟩
            · left
              split
              · exact le_of_not_gt hmore
              · exact hle
        · right
          have hkeep : fullest value admits start (n + 1) = fullest value admits start n := by
            rw [fullest, if_neg fun htakes => Bool.false_ne_true (hrefused.symm.trans htakes.2)]
          rw [hkeep]
          refine ⟨hzero, .inr (Bool.eq_false_iff.mpr fun hadmits => ?_)⟩
          exact Bool.false_ne_true (hrefused.symm.trans (hlater hadmits))
  exact hscans.resolve_right fun hnot => hplace hnot.1

/-- Nothing is taken that is not greater. -/
theorem fullest_keep {m n : ℕ} (hmn : m ≤ n)
    (hle : ∀ j, m ≤ j → j < n → value j ≤ (fullest value admits start m).1) :
    fullest value admits start n = fullest value admits start m := by
  induction n, hmn using Nat.le_induction with
  | base => rfl
  | succ n hmn ih =>
      have hsame := ih fun j hj hlt => hle j hj (by omega)
      rw [fullest, hsame, if_neg fun htakes => ?_]
      exact absurd htakes.1 (not_lt_of_ge (hle n hmn (Nat.lt_succ_self n)))

/-- Where all values are admitted, the scan finds the first of the greatest ones, unless none is greater
than the start. -/
theorem fullest_of_first {i n : ℕ} (hi : i < n) (hadmits : ∀ j < n, ∀ v, admits j v = true)
    (hmax : ∀ j < n, value j ≤ value i) (hfirst : ∀ j < i, value j < value i) :
    fullest value admits start n = if start < value i then (value i, i) else (start, 0) := by
  split
  · rename_i hstart
    have hbefore : (fullest value admits start i).1 < value i := by
      have hplaces : fullest value admits start i = (start, 0) ∨ ∃ m < i, _ := fullest_place i
      rcases hplaces with hkept | ⟨m, hm, hplace, -⟩
      · rwa [hkept]
      · rw [hplace]
        exact hfirst m hm
    have htaken : fullest value admits start (i + 1) = (value i, i) := by
      rw [fullest, if_pos ⟨hbefore, hadmits i hi _⟩]
    rw [fullest_keep (Nat.succ_le_of_lt hi), htaken]
    intro j _ hj
    rw [htaken]
    exact hmax j hj
  · rename_i hnot
    exact fullest_keep (Nat.zero_le n) fun j _ hj => (hmax j hj).trans (le_of_not_gt hnot)

end Scan
