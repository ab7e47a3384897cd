import Mathlib.Algebra.Group.Nat.Defs
import Mathlib.Data.List.Induction
import Mathlib.Data.List.OfFn

/-!
# Words bit by bit

How a word goes over a wire, the highest bit first: `ofWord` is what is sent, and `shiftIn` what a
receiver does with each bit.
-/

namespace Bits

variable {w : ℕ}

/-- The bits of a word, the highest one first. -/
def ofWord (x : BitVec w) : List Bool := List.ofFn fun i : Fin w => x.getMsbD i

/-- `x = {x, b}` for a shift register `x`. -/
def shiftIn (x : BitVec w) (b : Bool) : BitVec w := x <<< 1 ||| (BitVec.ofBool b).setWidth w

/-- What the bits leave in a shift register that was empty. -/
def toWord (w : ℕ) (bits : List Bool) : BitVec w := bits.foldl shiftIn 0

theorem length_ofWord (x : BitVec w) : (ofWord x).length = w := List.length_ofFn

theorem getElem?_ofWord (x : BitVec w) {k : ℕ} (hk : k < w) : (ofWord x)[k]? = some (x.getMsbD k) := by
  rw [ofWord, List.getElem?_ofFn, dif_pos hk]

/-- The bits after the first `k`. -/
theorem drop_ofWord (x : BitVec w) {k : ℕ} (hk : k < w) :
    (ofWord x).drop k = x.getMsbD k :: (ofWord x).drop (k + 1) := by
  have hlen : k < (ofWord x).length := (length_ofWord x).symm ▸ hk
  rw [List.drop_eq_getElem_cons hlen]
  congr 1
  exact Option.some_injective _ ((List.getElem?_eq_getElem hlen).symm.trans (getElem?_ofWord x hk))

theorem drop_ofWord_self (x : BitVec w) : (ofWord x).drop w = [] :=
  List.drop_eq_nil_of_le (length_ofWord x).le

theorem take_ofWord_succ (x : BitVec w) {k : ℕ} (hk : k < w) :
    (ofWord x).take (k + 1) = (ofWord x).take k ++ [x.getMsbD k] := by
  rw [List.take_add_one, getElem?_ofWord x hk]
  rfl

theorem take_ofWord_self (x : BitVec w) : (ofWord x).take w = ofWord x :=
  List.take_of_length_le (length_ofWord x).le

theorem getLsbD_shiftIn (x : BitVec w) (b : Bool) {i : ℕ} (hi : i < w) :
    (shiftIn x b).getLsbD i = if i = 0 then b else x.getLsbD (i - 1) := by
  rw [shiftIn, BitVec.getLsbD_or, BitVec.getLsbD_shiftLeft, BitVec.getLsbD_setWidth,
    BitVec.getLsbD_ofBool]
  cases i with
  | zero => simp [hi]
  | succ i => simp [hi]

/-- One more bit of `x` has come in. -/
theorem shiftIn_getMsbD (x : BitVec w) {k : ℕ} (hk : k < w) :
    shiftIn (x >>> (w - k)) (x.getMsbD k) = x >>> (w - (k + 1)) := by
  apply BitVec.eq_of_getLsbD_eq
  intro i hi
  simp only [getLsbD_shiftIn _ _ hi, BitVec.getLsbD_ushiftRight]
  cases i with
  | zero =>
      have hpos : w - 1 - k = w - (k + 1) + 0 := by omega
      rw [if_pos rfl, BitVec.getMsbD, decide_eq_true hk, Bool.true_and, hpos]
  | succ i =>
      have hpos : w - k + (i + 1 - 1) = w - (k + 1) + (i + 1) := by omega
      rw [if_neg (Nat.succ_ne_zero i), hpos]

theorem toWord_append (bits : List Bool) (b : Bool) :
    toWord w (bits ++ [b]) = shiftIn (toWord w bits) b := by
  rw [toWord, List.foldl_append]
  rfl

theorem toWord_take (x : BitVec w) {k : ℕ} (hk : k ≤ w) :
    toWord w ((ofWord x).take k) = x >>> (w - k) := by
  induction k with
  | zero =>
      rw [List.take_zero, Nat.sub_zero]
      exact (BitVec.ushiftRight_eq_zero le_rfl).symm
  | succ k ih =>
      rw [take_ofWord_succ x hk, toWord_append, ih (Nat.le_of_succ_le hk), shiftIn_getMsbD x hk]

/-- A word arrives as it was sent. -/
theorem toWord_ofWord (x : BitVec w) : toWord w (ofWord x) = x := by
  rw [← take_ofWord_self x, toWord_take x le_rfl, Nat.sub_self, BitVec.ushiftRight_zero]

/-- What was in the register is gone behind as many bits. -/
theorem foldl_shiftIn_congr (x y : BitVec w) (bits : List Bool) {i : ℕ} (hi : i < w)
    (hbits : i < bits.length) : (bits.foldl shiftIn x).getLsbD i = (bits.foldl shiftIn y).getLsbD i := by
  induction bits using List.reverseRecOn generalizing i with
  | nil => exact absurd hbits (Nat.not_lt_zero i)
  | append_singleton bits b ih =>
      rw [List.foldl_append, List.foldl_append, List.foldl_cons, List.foldl_cons, List.foldl_nil,
        List.foldl_nil, getLsbD_shiftIn _ _ hi, getLsbD_shiftIn _ _ hi]
      cases i with
      | zero => rw [if_pos rfl, if_pos rfl]
      | succ i =>
          rw [List.length_append, List.length_singleton] at hbits
          rw [if_neg (Nat.succ_ne_zero i), if_neg (Nat.succ_ne_zero i)]
          exact ih (Nat.lt_of_succ_lt hi) (Nat.lt_of_succ_lt_succ hbits)

theorem foldl_shiftIn_ofWord (x y : BitVec w) : (ofWord x).foldl shiftIn y = x := by
  have hempty : (ofWord x).foldl shiftIn y = toWord w (ofWord x) := by
    apply BitVec.eq_of_getLsbD_eq
    intro i hi
    exact foldl_shiftIn_congr y 0 (ofWord x) hi ((length_ofWord x).symm ▸ hi)
  rw [hempty, toWord_ofWord]

/-! ### The halves of a word -/

theorem extractLsb'_high {m n : ℕ} (x : BitVec m) (y : BitVec n) : (x ++ y).extractLsb' n m = x := by
  apply BitVec.eq_of_getLsbD_eq
  intro i hi
  rw [BitVec.getLsbD_extractLsb', BitVec.getLsbD_append, if_neg (by omega), decide_eq_true hi,
    Bool.true_and, Nat.add_sub_cancel_left]

theorem setWidth_low {m n : ℕ} (x : BitVec m) (y : BitVec n) : (x ++ y).setWidth n = y := by
  rw [BitVec.setWidth_append, dif_pos le_rfl, BitVec.setWidth_eq]

end Bits
