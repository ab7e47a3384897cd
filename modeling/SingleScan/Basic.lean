import Mathlib.Algebra.Group.Nat.Defs
import Mathlib.Data.List.OfFn

/-!
# Words, layers and boundary tables

The types both halves of the scanner share: the 32-bit words that the Nios core and the FPGA
exchange over the two Avalon FIFOs, the three alarm layers, and the table of 811 boundaries that is
downloaded for a layer.
-/

namespace SingleScan

abbrev Word := BitVec 32

/-- `TARGET_NUMBER`: the distances of one rotation that are reported and compared. -/
def targetNumber : Nat := 811

/-- The alarm layers: 0 inner, 1 middle, 2 outer. -/
abbrev Layer := Fin 3

def Layer.inner : Layer := ⟨0, by decide⟩

/-- The boundaries of one layer, as `struct __region` buffers them. -/
abbrev BoundaryTable := Fin targetNumber → BitVec 16

/-- `ENABLE`, the word that switches something on. -/
def enable : Word := 0x11111111

/-- `DISABLE`, the word that switches something off. -/
def disable : Word := 0x22222222

/-- The upper half of a word, `[31:16]`. -/
def Word.high (w : Word) : BitVec 16 := w.extractLsb' 16 16

/-- The lower half of a word, `[15:00]`. -/
def Word.low (w : Word) : BitVec 16 := w.setWidth 16

/-- The C expression `(w >> 16) + (w << 16)`. -/
def swapHalves (w : Word) : Word := (w >>> 16) + (w <<< 16)

/-- `map_avalonmm_to_avalonst` of the protocol FIFO; the laser FIFO maps the other way with the same
wiring. -/
def mapAvalonmmToAvalonst (w : Word) : Word := w.setWidth 16 ++ w.extractLsb' 16 16

/-- The software swaps the halves of each word that it writes, and the FIFO swaps them back. -/
theorem mapAvalonmmToAvalonst_swapHalves (w : Word) : mapAvalonmmToAvalonst (swapHalves w) = w := by
  apply BitVec.eq_of_getLsbD_eq
  intro i hi
  have hor : swapHalves w = (w >>> 16) ||| (w <<< 16) :=
    BitVec.add_eq_or_of_and_eq_zero _ _ (by
      apply BitVec.eq_of_getLsbD_eq
      intro j hj
      simp only [BitVec.getLsbD_and, BitVec.getLsbD_ushiftRight, BitVec.getLsbD_shiftLeft,
        BitVec.getLsbD_zero]
      by_cases hlow : j < 16
      · simp [hlow]
      · rw [BitVec.getLsbD_of_ge w (16 + j) (by omega), Bool.false_and])
  rw [mapAvalonmmToAvalonst, hor]
  simp only [BitVec.getLsbD_append, BitVec.getLsbD_extractLsb', BitVec.getLsbD_setWidth,
    BitVec.getLsbD_or, BitVec.getLsbD_ushiftRight, BitVec.getLsbD_shiftLeft]
  by_cases hlow : i < 16
  · have hwide : w.getLsbD (16 + (16 + i)) = false := BitVec.getLsbD_of_ge w _ (by omega)
    simp [hlow, hwide]
    intro _
    omega
  · have hhigh : i - 16 < 16 := by omega
    have hsum : 16 + (i - 16) = i := by omega
    simp [hlow, hhigh, hsum]

theorem mapAvalonmmToAvalonst_involutive (w : Word) :
    mapAvalonmmToAvalonst (mapAvalonmmToAvalonst w) = w := by
  apply BitVec.eq_of_getLsbD_eq
  intro i hi
  simp only [mapAvalonmmToAvalonst, BitVec.getLsbD_append, BitVec.getLsbD_extractLsb',
    BitVec.getLsbD_setWidth]
  by_cases hlow : i < 16
  · simp [hlow, hi]
  · have hhigh : i - 16 < 16 := by omega
    have hsum : 16 + (i - 16) = i := by omega
    simp [hlow, hhigh, hi, hsum]

/-- The way back: the FIFO swaps the halves and the software swaps them again. -/
theorem swapHalves_mapAvalonmmToAvalonst (w : Word) : swapHalves (mapAvalonmmToAvalonst w) = w := by
  have hswap : ∀ v, swapHalves v = mapAvalonmmToAvalonst v := by
    intro v
    rw [← mapAvalonmmToAvalonst_involutive (swapHalves v), mapAvalonmmToAvalonst_swapHalves]
  rw [hswap, mapAvalonmmToAvalonst_involutive]

end SingleScan
