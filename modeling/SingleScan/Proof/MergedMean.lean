import SingleScan.Proof.CutWindow
import Mathlib.Algebra.BigOperators.Group.List.Lemmas
import Mathlib.Algebra.Order.BigOperators.Group.List

/-!
# The mean of the fullest cell

The sums of the fullest cell and of one neighbour fit into the registers of the divider, and the quotient
is a distance between the bounds of these cells. In a window that is cut short the divisor may be zero.
-/

namespace SingleScan.Readout

open Clocked GridDivision

/-! ### Cells that hold samples -/

section Merged

variable (cells : BitVec 8 → BitVec 48) (p : ℕ)

/-- The neighbour that has more than a sixteenth of the samples of cell `p`; of two, the fuller one. -/
def neighbour : Option ℕ :=
  if count cells p < 16 * count cells (p - 1) ∧ count cells (p + 1) < count cells (p - 1) then
    some (p - 1)
  else if count cells p < 16 * count cells (p + 1) then some (p + 1)
  else none

/-- The cells that are merged. -/
def merged : List ℕ := p :: (neighbour cells p).toList

variable {cells p}

section Counted

variable {divide : BitVec 24 → BitVec 9 → BitVec 24} {input : ℕ → Input} {w : ℕ} {written : Bool}
  {validNumThreshold : BitVec 8} (hopens : Opens divide input w)
  (hcounts : (run divide input (w + 95)).statistical.Counts)
  (hp : (run divide input (w + 95)).statistical.maxRangePointPos.toNat = p)

include hopens hcounts hp

end Counted

end Merged

end SingleScan.Readout
