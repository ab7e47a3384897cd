import Mathlib.Data.Fin.Tuple.Basic
import SingleScan.Lib.Trace
import SingleScan.Basic

/-!
# The zero of the distances

`zero_distance.v` takes the first two distances behind each zero mark and averages the last sixteen of
them. `zero_revise.v` subtracts that from every distance; in `calc_distance_top.v` both see the same
distances.
-/

namespace SingleScan

namespace ZeroDistance

/-- The states of the one-hot register `cs`. -/
inductive Phase
  | idle | wait | first | second | over
deriving DecidableEq, Repr

structure Input where
  zeroDistanceRevise : BitVec 16
  zeroFlag : Bool
  dataInValid : Bool
  dataIn : BitVec 16

/-- `dataInR` is the shift register `data_in_r00`, …, `data_in_r15`, and `dataPipe0`, `dataPipe1` and
`dataPipe2` are the stages `data_pipe_0x`, `data_pipe_1x` and `data_pipe_2x` of the adder tree. -/
structure State where
  cs : Phase
  dataInR : Fin 16 → BitVec 16
  dataPipe0 : Fin 8 → BitVec 20
  dataPipe1 : Fin 4 → BitVec 20
  dataPipe2 : Fin 2 → BitVec 20
  dataOut : BitVec 16

/-- The adder tree has no reset and powers up as 0. -/
def State.reset : State where
  cs := .idle
  dataInR := fun _ => 0
  dataPipe0 := fun _ => 0
  dataPipe1 := fun _ => 0
  dataPipe2 := fun _ => 0
  dataOut := 0

/-- The next state `ns`. -/
def State.ns (s : State) (i : Input) : Phase :=
  match s.cs with
  | .idle => if i.zeroFlag then .wait else .idle
  | .wait => if i.dataInValid then .first else .wait
  | .first => if i.dataInValid then .second else .first
  | .second => if i.dataInValid then .idle else .second
  | .over => .idle

/-- The distance goes into the shift register. -/
def State.takes (s : State) (i : Input) : Bool :=
  s.cs == .wait && s.ns i == .first || s.cs == .first && s.ns i == .second

/-- The register of a stage to the left of register `k` of the next one. -/
def left {n : ℕ} (k : Fin n) : Fin (2 * n) := ⟨2 * k, by omega⟩

/-- The register of a stage to the right of register `k` of the next one. -/
def right {n : ℕ} (k : Fin n) : Fin (2 * n) := ⟨2 * k + 1, by omega⟩

/-- One edge of `clk`. -/
def step (s : State) (i : Input) : State where
  cs := s.ns i
  dataInR := if s.takes i then Fin.cons i.dataIn (Fin.init s.dataInR) else s.dataInR
  dataPipe0 k := (s.dataInR (left k)).setWidth 20 + (s.dataInR (right k)).setWidth 20
  dataPipe1 k := s.dataPipe0 (left k) + s.dataPipe0 (right k)
  dataPipe2 k := s.dataPipe1 (left k) + s.dataPipe1 (right k)
  dataOut :=
    (((s.dataPipe2 ⟨0, Nat.two_pos⟩ + s.dataPipe2 ⟨1, Nat.one_lt_two⟩) >>> 4) -
      i.zeroDistanceRevise.setWidth 20).setWidth 16

end ZeroDistance

namespace ZeroRevise

structure Input where
  zeroValue : BitVec 16
  dataInValid : Bool
  dataIn : BitVec 16

structure State where
  dataOutValid : Bool
  dataOut : BitVec 16

/-- One edge of `clk`. -/
def step (_ : State) (i : Input) : State where
  dataOutValid := i.dataInValid
  dataOut := if i.zeroValue.toNat < i.dataIn.toNat then i.dataIn - i.zeroValue else 0xFFFF

end ZeroRevise

/-! ### The two together -/

namespace Zeroing

structure State where
  distance : ZeroDistance.State
  revise : ZeroRevise.State

def State.reset : State where
  distance := .reset
  revise := { dataOutValid := false, dataOut := 0 }

/-- One edge of `clk`. -/
def step (s : State) (i : ZeroDistance.Input) : State where
  distance := ZeroDistance.step s.distance i
  revise := ZeroRevise.step s.revise
    { zeroValue := s.distance.dataOut, dataInValid := i.dataInValid, dataIn := i.dataIn }

end Zeroing

end SingleScan
