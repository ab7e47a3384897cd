import SingleScan.Lib.Trace
import SingleScan.Basic

/-!
# The selection of one rotation

`data_select.v`: a rotation measures 1081 distances. The module skips `angle_offset` of them behind
the zero mark and passes the next 811 on; `cycle_enable` is high as long as it does.
-/

namespace SingleScan.DataSelect

/-- The states of the one-hot register `cs`. -/
inductive Phase
  | idle | skip | enable | over
deriving DecidableEq, Repr

structure Input where
  zeroFlag : Bool
  angleOffset : BitVec 16
  minDisplayDistance : BitVec 8
  dataInValid : Bool
  dataIn : BitVec 16

structure State where
  cs : Phase
  angleOffsetLock : BitVec 16
  offsetCnt : BitVec 16

def State.reset : State where
  cs := .idle
  angleOffsetLock := 0
  offsetCnt := 0

/-- The next state `ns`. Both comparisons are 32 bits wide: an offset of 0 never opens the window. -/
def State.ns (s : State) (i : Input) : Phase :=
  match s.cs with
  | .idle => if i.zeroFlag then .skip else .idle
  | .skip =>
      if s.offsetCnt.setWidth 32 = s.angleOffsetLock.setWidth 32 - 1 then .enable else .skip
  | .enable =>
      if s.angleOffsetLock.toNat + targetNumber - 1 ≤ s.offsetCnt.toNat then .idle else .enable
  | .over => .idle

/-- One edge of `clk`. -/
def step (s : State) (i : Input) : State where
  cs := s.ns i
  angleOffsetLock := if s.cs = .idle then i.angleOffset else s.angleOffsetLock
  offsetCnt :=
    if i.zeroFlag then 0 else if i.dataInValid then s.offsetCnt + 1 else s.offsetCnt

def State.cycleEnable (s : State) : Bool := s.cs == .enable

def State.dataOutValid (s : State) (i : Input) : Bool := s.cs == .enable && i.dataInValid

/-- A distance below `min_display_distance` counts as no echo. -/
def State.dataOut (s : State) (i : Input) : BitVec 16 :=
  if s.cs = .enable then
    if i.dataIn.toNat < i.minDisplayDistance.toNat then 0xFFFF else i.dataIn
  else 0

end SingleScan.DataSelect
