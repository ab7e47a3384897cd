import SingleScan.GridRam

/-!
# The distances of a window, written into the histogram

`grid_division.v` counts every distance in the cell of its 400 mm: it reads the cell, adds the distance
and writes the cell back. `tannis_change` says which of the two banks it writes. It is toggled when
`degree_para` shots have been sent, and by the edge of a tooth of the motor.
-/

namespace SingleScan.GridDivision

/-- The states of the one-hot register `cs`. `WHELL_JUDGE` and `OVER` are never entered. -/
inductive Phase
  | idle | waitData | waitGrid | read | write | degree33Judge | waitMotor
deriving DecidableEq, Repr

structure Input where
  sendEn : Bool
  validIn : Bool
  distanceIn : BitVec 16
  grayIn : BitVec 8
  zeroFlag : Bool
  stepCnt : BitVec 8
  wheelFall : Bool
  degreePara : BitVec 8

/-- The registers that the distances do not touch. -/
structure Control where
  cs : Phase
  stateCnt : BitVec 16
  validInR0 : BitVec 32
  sendEnCnt : BitVec 8
  gridDegree33Cnt : BitVec 8
  tannisChange : Bool

def Control.powerUp : Control where
  cs := .idle
  stateCnt := 0
  validInR0 := 0
  sendEnCnt := 0
  gridDegree33Cnt := 0
  tannisChange := false

def Control.divOver (s : Control) : Bool := s.validInR0.getLsbD 11

/-- The next state `ns`. -/
def Control.ns (s : Control) (i : Input) : Phase :=
  match s.cs with
  | .idle => if i.zeroFlag then .waitData else .idle
  | .waitData => if i.validIn then .waitGrid else .waitData
  | .waitGrid => if s.divOver then .read else .waitGrid
  | .read => if s.stateCnt = 3 then .write else .read
  | .write => .degree33Judge
  | .degree33Judge =>
      if 43 ≤ i.stepCnt.toNat then .idle
      else if i.wheelFall then .waitData
      else if (if i.stepCnt = 34 then 48 else 24) ≤ s.gridDegree33Cnt.toNat then .waitMotor
      else .waitData
  | .waitMotor => if i.wheelFall then .waitData else .waitMotor

def Control.step (s : Control) (i : Input) : Control where
  cs := s.ns i
  stateCnt := if s.cs ≠ s.ns i then 0 else s.stateCnt + 1
  validInR0 := s.validInR0.setWidth 31 ++ BitVec.ofBool i.validIn
  sendEnCnt :=
    if i.zeroFlag then 0
    else if i.wheelFall then 0
    else if s.sendEnCnt = i.degreePara then 0
    else if s.cs = .waitMotor ∨ s.cs = .idle then 0
    else if i.sendEn then s.sendEnCnt + 1
    else s.sendEnCnt
  gridDegree33Cnt :=
    if i.wheelFall then 0
    else if s.cs = .waitMotor ∨ s.cs = .idle then 0
    else if s.sendEnCnt = i.degreePara then s.gridDegree33Cnt + 1
    else s.gridDegree33Cnt
  tannisChange :=
    if s.cs = .idle then false
    else if s.sendEnCnt = i.degreePara then !s.tannisChange
    else if i.wheelFall then if s.sendEnCnt = 0 then s.tannisChange else !s.tannisChange
    else s.tannisChange

/-- The fields of a cell: the sum of the gray values, the number of distances and their sum. -/
def gray (cell : BitVec 48) : BitVec 16 := cell.extractLsb' 32 16

def number (cell : BitVec 48) : BitVec 8 := cell.extractLsb' 24 8

def value (cell : BitVec 48) : BitVec 24 := cell.extractLsb' 0 24

/-- A port is that of `tannis1` at `false` and that of `tannis2` at `true`: `tannis_change` is the bank
that is written. -/
structure State extends Control where
  gridIdx : BitVec 8
  gridGray : BitVec 16
  gridValue : BitVec 24
  gridAddr : Mod10.State
  leftRden : Bool → Bool
  leftWren : Bool → Bool
  leftWrdata : Bool → BitVec 48

def State.powerUp : State where
  toControl := Control.powerUp
  gridIdx := 0
  gridGray := 0
  gridValue := 0
  gridAddr := Mod10.State.powerUp
  leftRden _ := false
  leftWren _ := false
  leftWrdata _ := 0

/-- `tannis1_left_addr` and `tannis2_left_addr`: the 400 mm of the distance, or the last cell if there
was no echo. -/
def State.leftAddr (s : State) (i : Input) : BitVec 8 :=
  if i.distanceIn = 0xffff then 80 else (s.gridAddr.quotient.setWidth 9).setWidth 8

/-- `rddata bank` is `tannis1_left_rddata` or `tannis2_left_rddata`. -/
def step (divide : BitVec 24 → BitVec 9 → BitVec 24) (s : State) (i : Input)
    (rddata : Bool → BitVec 48) : State where
  toControl := s.toControl.step i
  gridIdx :=
    if s.cs = .read ∧ s.stateCnt = 3 then number (rddata s.tannisChange) + 1 else s.gridIdx
  gridGray :=
    if s.cs = .read ∧ s.stateCnt = 3 then gray (rddata s.tannisChange) + i.grayIn.setWidth 16
    else s.gridGray
  gridValue :=
    if s.cs = .read ∧ s.stateCnt = 3 then value (rddata s.tannisChange) + i.distanceIn.setWidth 24
    else s.gridValue
  gridAddr := Mod10.step divide s.gridAddr (i.distanceIn.setWidth 24) 400
  leftRden bank := bank == s.tannisChange && s.divOver && s.cs != .waitMotor
  leftWren bank := bank == s.tannisChange && s.cs == .write
  leftWrdata bank :=
    if bank = s.tannisChange ∧ s.cs = .write then s.gridGray ++ s.gridIdx ++ s.gridValue
    else s.leftWrdata bank

end SingleScan.GridDivision
