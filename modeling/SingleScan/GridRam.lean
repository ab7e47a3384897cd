import Mathlib.Data.Fin.Tuple.Basic
import Mathlib.Logic.Function.Basic

/-!
# The histogram RAM and the divider

`grid_ram.v` is an `altsyncram` of 256 words of 48 bits with two ports and registers behind its outputs,
`mod10.v` an `lpm_divide` with twelve stages. Both are generated wrappers.
-/

namespace SingleScan

/-- What one port of `grid_ram` gets. -/
structure RamPort where
  rden : Bool
  wren : Bool
  addr : BitVec 8
  data : BitVec 48

namespace GridRam

/-- `latchA` and `latchB` are what the array has read, `qA` and `qB` the output registers. -/
structure State where
  cells : BitVec 8 → BitVec 48
  latchA : BitVec 48
  latchB : BitVec 48
  qA : BitVec 48
  qB : BitVec 48

/-- `power_up_uninitialized` is `FALSE`. -/
def State.powerUp : State where
  cells _ := 0
  latchA := 0
  latchB := 0
  qA := 0
  qB := 0

/-- One write port. -/
def write (cells : BitVec 8 → BitVec 48) (port : RamPort) : BitVec 8 → BitVec 48 :=
  if port.wren then Function.update cells port.addr port.data else cells

/-- One read port. It reads its own new data, and without `rden` it keeps what it has read. -/
def read (cells : BitVec 8 → BitVec 48) (port : RamPort) (latch : BitVec 48) : BitVec 48 :=
  if port.rden then write cells port port.addr else latch

def step (s : State) (a b : RamPort) : State where
  cells := write (write s.cells a) b
  latchA := read s.cells a s.latchA
  latchB := read s.cells b s.latchB
  qA := s.latchA
  qB := s.latchB

end GridRam

namespace Mod10

/-- The quotients on their way through the stages, youngest first. -/
structure State where
  stages : Fin 12 → BitVec 24

def State.powerUp : State where
  stages _ := 0

def State.quotient (s : State) : BitVec 24 := s.stages (Fin.last 11)

/-- `divide` is the division of `lpm_divide`. -/
def step (divide : BitVec 24 → BitVec 9 → BitVec 24) (s : State) (numer : BitVec 24)
    (denom : BitVec 9) : State where
  stages := Fin.cons (divide numer denom) (Fin.init s.stages)

end Mod10

end SingleScan
