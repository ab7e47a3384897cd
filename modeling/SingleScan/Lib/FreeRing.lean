import SingleScan.Lib.Ring
import Mathlib.Algebra.Group.Nat.Defs

/-!
# Rings with free-running pointers

The pointers of such a ring count on over its size, which divides the range of the counters, so that all
cells can be in use. `put` writes a list into the cells from a pointer on.
-/

namespace Ring

variable {α : Type} {data : ℕ → α} {depth front front' n m : ℕ}
  {xs : List α}

/-- The cells from `at'` on are overwritten by a list. -/
def put (data : ℕ → α) (depth at' : ℕ) : List α → ℕ → α
  | [] => data
  | x :: xs => put (Function.update data (at' % depth) x) depth (at' + 1) xs

theorem cells_add : cells data depth front (m + n) =
    cells data depth front m ++ cells data depth (front + m) n := by
  simp only [cells, List.range_add, List.map_append, List.map_map]
  congr 1
  apply List.map_congr_left
  intro j _
  rw [Function.comp_apply, Nat.add_assoc]

/-- Only the place in the ring matters. -/
theorem cells_congr (hplace : front % depth = front' % depth) :
    cells data depth front n = cells data depth front' n := by
  apply List.map_congr_left
  intro j _
  rw [Nat.add_mod, hplace, ← Nat.add_mod]

theorem put_congr (hplace : front % depth = front' % depth) :
    put data depth front xs = put data depth front' xs := by
  induction xs generalizing data front front' with
  | nil => rfl
  | cons x xs ih =>
      have hnext : (front + 1) % depth = (front' + 1) % depth := by
        rw [Nat.add_mod, hplace, ← Nat.add_mod]
      rw [put, put, hplace, ih hnext]

/-- A list goes in behind the live cells, and they stay. -/
theorem cells_put (hroom : n + xs.length ≤ depth) :
    cells (put data depth (front + n) xs) depth front (n + xs.length) =
      cells data depth front n ++ xs := by
  induction xs generalizing data n with
  | nil => exact (List.append_nil _).symm
  | cons x xs ih =>
      rw [List.length_cons] at hroom
      have hfront : front % depth < depth := Nat.mod_lt _ (by omega)
      have hplace : (front + n) % depth = (front % depth + n) % depth := (Nat.mod_add_mod _ _ _).symm
      have hkeep : cells (Function.update data ((front + n) % depth) x) depth front n =
          cells data depth front n := by
        rw [hplace, cells_congr (Nat.mod_mod front depth).symm, cells_update hfront (by omega) x,
          cells_congr (Nat.mod_mod front depth)]
      have hrest : cells (put (Function.update data ((front + n) % depth) x) depth (front + (n + 1)) xs) depth
          front (n + 1 + xs.length) =
            cells (Function.update data ((front + n) % depth) x) depth front (n + 1) ++ xs := ih (by omega)
      rw [cells_append, hkeep, Function.update_self, List.append_assoc, List.singleton_append] at hrest
      rw [List.length_cons, ← Nat.add_assoc, Nat.add_right_comm]
      exact hrest

end Ring
