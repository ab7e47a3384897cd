import Mathlib.Data.List.Range
import Mathlib.Logic.Function.Basic

/-!
# Ring buffers

A buffer of `depth` cells whose live part starts at `front` and runs up to, but not including,
`rear`. One cell always stays free, so that `front = rear` means empty. `cells` is the list the live
part stands for.
-/

namespace Ring

variable {α : Type} {data : ℕ → α} {depth front rear n : ℕ}

/-- The `n` cells from `front` on, around the ring. -/
def cells (data : ℕ → α) (depth front n : ℕ) : List α :=
  (List.range n).map fun j => data ((front + j) % depth)

/-- The number of live cells. -/
def count (depth front rear : ℕ) : ℕ := (rear + depth - front) % depth

@[simp]
theorem length_cells : (cells data depth front n).length = n := by simp [cells]

theorem mod_of_lt_two_mul {x : ℕ} (h : x < 2 * depth) :
    x % depth = if x < depth then x else x - depth := by
  split
  · exact Nat.mod_eq_of_lt ‹_›
  · rw [Nat.mod_eq_sub_mod (by omega), Nat.mod_eq_of_lt (by omega)]

theorem count_eq (hfront : front < depth) (hrear : rear < depth) :
    count depth front rear = if front ≤ rear then rear - front else rear + depth - front := by
  rw [count, mod_of_lt_two_mul (by omega)]
  split <;> split <;> omega

theorem count_lt (hfront : front < depth) : count depth front rear < depth :=
  Nat.mod_lt _ (by omega)

theorem count_eq_zero_iff (hfront : front < depth) (hrear : rear < depth) :
    count depth front rear = 0 ↔ front = rear := by
  rw [count_eq hfront hrear]
  split <;> omega

theorem front_add_count (hfront : front < depth) (hrear : rear < depth) :
    (front + count depth front rear) % depth = rear := by
  have hcount : count depth front rear < depth := count_lt hfront
  rw [mod_of_lt_two_mul (by omega), count_eq hfront hrear]
  split <;> split <;> omega

theorem count_push (hfront : front < depth) (hrear : rear < depth)
    (hroom : (rear + 1) % depth ≠ front) :
    count depth front ((rear + 1) % depth) = count depth front rear + 1 := by
  have hnext : (rear + 1) % depth = if rear + 1 < depth then rear + 1 else rear + 1 - depth :=
    mod_of_lt_two_mul (by omega)
  have hlt : (rear + 1) % depth < depth := Nat.mod_lt _ (by omega)
  rw [count_eq hfront hrear, count_eq hfront hlt]
  split at hnext <;> split <;> split <;> omega

theorem count_pop (hfront : front < depth) (hrear : rear < depth) (hne : front ≠ rear) :
    count depth front rear = count depth ((front + 1) % depth) rear + 1 := by
  have hnext : (front + 1) % depth = if front + 1 < depth then front + 1 else front + 1 - depth :=
    mod_of_lt_two_mul (by omega)
  have hlt : (front + 1) % depth < depth := Nat.mod_lt _ (by omega)
  rw [count_eq hfront hrear, count_eq hlt hrear]
  split at hnext <;> split <;> split <;> omega

theorem cells_zero : cells data depth front 0 = [] := rfl

theorem cells_append : cells data depth front (n + 1) =
    cells data depth front n ++ [data ((front + n) % depth)] := by
  simp [cells, List.range_succ]

theorem cells_cons (hfront : front < depth) : cells data depth front (n + 1) =
    data front :: cells data depth ((front + 1) % depth) n := by
  simp only [cells, List.range_succ_eq_map, List.map_cons, List.map_map, Nat.add_zero,
    Nat.mod_eq_of_lt hfront]
  congr 1
  apply List.map_congr_left
  intro j _
  simp only [Function.comp, Nat.mod_add_mod]
  congr 2
  omega

/-- Writing the free cell does not change the live ones. -/
theorem cells_update (hfront : front < depth) (hn : n < depth) (x : α) :
    cells (Function.update data ((front + n) % depth) x) depth front n =
      cells data depth front n := by
  apply List.map_congr_left
  intro j hj
  have hjn : j < n := List.mem_range.mp hj
  apply Function.update_of_ne
  rw [mod_of_lt_two_mul (x := front + j) (by omega),
    mod_of_lt_two_mul (x := front + n) (by omega)]
  split <;> split <;> omega

/-- **Push.** -/
theorem cells_push (hfront : front < depth) (hrear : rear < depth)
    (hroom : (rear + 1) % depth ≠ front) (x : α) :
    cells (Function.update data rear x) depth front (count depth front ((rear + 1) % depth)) =
      cells data depth front (count depth front rear) ++ [x] := by
  have hfree := front_add_count hfront hrear
  have hkeep : cells (Function.update data ((front + count depth front rear) % depth) x) depth
      front (count depth front rear) = cells data depth front (count depth front rear) :=
    cells_update hfront (count_lt hfront) x
  rw [hfree] at hkeep
  rw [count_push hfront hrear hroom, cells_append, hfree, Function.update_self, hkeep]

/-- **Pop.** -/
theorem cells_pop (hfront : front < depth) (hrear : rear < depth) (hne : front ≠ rear) :
    cells data depth front (count depth front rear) =
      data front :: cells data depth ((front + 1) % depth)
        (count depth ((front + 1) % depth) rear) := by
  rw [count_pop hfront hrear hne, cells_cons hfront]

end Ring
