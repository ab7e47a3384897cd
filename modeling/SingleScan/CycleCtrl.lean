import SingleScan.Lib.Trace
import SingleScan.Basic

/-!
# The repetition rate

`cycle_ctrl.v`: one `send_en` pulse fires the laser once. A period has a fixed part, `BASIC`, and a part
that the lowest nibble of `offset` sets, and `offset` turns by a nibble with every period.
-/

namespace SingleScan.CycleCtrl

/-- The states of the one-hot register `cs`. -/
inductive Phase
  | idle | basic | offset | over
deriving DecidableEq, Repr

structure Input where
  laserEnable : Bool
  laserPresdo : BitVec 240

structure State where
  cs : Phase
  stateCnt : BitVec 16
  offset : BitVec 240
  laserPresdoR0 : BitVec 32
  laserPresdoR1 : BitVec 32

/-- The two samples of `laser_presdo` have no reset and power up as 0. -/
def State.reset : State where
  cs := .idle
  stateCnt := 0
  offset := 0x000000000000111111111111222222222222333333333333444444444444
  laserPresdoR0 := 0
  laserPresdoR1 := 0

/-- `laser_presdo[31]` is a single bit, which the 32 bits of `laser_presdo_r0` extend. -/
def sampled (laserPresdo : BitVec 240) : BitVec 32 := (laserPresdo.extractLsb' 31 1).setWidth 32

def State.setLaserPresdo (s : State) : Bool := s.laserPresdoR1 != s.laserPresdoR0

def basicNum : ℕ := 120

/-- The next state `ns`. -/
def State.ns (s : State) (i : Input) : Phase :=
  match s.cs with
  | .idle => if i.laserEnable then .basic else .idle
  | .basic => if s.stateCnt.toNat = basicNum then .offset else .basic
  | .offset => if s.stateCnt = (s.offset.extractLsb' 0 3).setWidth 16 then .idle else .offset
  | .over => .idle

/-- `{offset[235:00], offset[239:236]}`. -/
def rotated (offset : BitVec 240) : BitVec 240 := offset.extractLsb' 0 236 ++ offset.extractLsb' 236 4

/-- One edge of `clk`. -/
def step (s : State) (i : Input) : State where
  cs := s.ns i
  stateCnt := if s.cs ≠ s.ns i then 0 else s.stateCnt + 1
  offset :=
    if s.setLaserPresdo then i.laserPresdo
    else if s.cs = .idle ∧ s.ns i = .basic then rotated s.offset
    else s.offset
  laserPresdoR0 := sampled i.laserPresdo
  laserPresdoR1 := s.laserPresdoR0

def State.sendEn (s : State) (i : Input) : Bool := s.cs == .offset && s.ns i == .idle

def State.changeFlag (s : State) : Bool := s.cs == .basic && s.stateCnt.toNat == 60

end SingleScan.CycleCtrl
