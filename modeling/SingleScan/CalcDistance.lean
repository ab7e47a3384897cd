import SingleScan.GridStatistical

/-!
# The measurement of the distance of a window

`calc_distance_top.v` up to the output of `grid_statistical`: two banks of `grid_ram`, of which
`grid_division` writes one while `grid_statistical` reads the other.
-/

namespace SingleScan.CalcDistance

/-- `grid_division` gets the low bits of `gray_in`. -/
structure Input where
  sendEn : Bool
  validIn : Bool
  distanceIn : BitVec 16
  grayIn : BitVec 16
  zeroFlag : Bool
  wheelFall : Bool
  stepCnt : BitVec 8
  degreePara : BitVec 8
  validNumThreshold : BitVec 8
  correctPulseWidth : BitVec 8

/-- The inputs of `grid_divisionEx01`. -/
def Input.toDivision (i : Input) : GridDivision.Input where
  sendEn := i.sendEn
  validIn := i.validIn
  distanceIn := i.distanceIn
  grayIn := i.grayIn.setWidth 8
  zeroFlag := i.zeroFlag
  stepCnt := i.stepCnt
  wheelFall := i.wheelFall
  degreePara := i.degreePara

/-- The inputs of `grid_statisticalEx01`. -/
def Input.toStatistical (i : Input) (tannisChange : Bool) : GridStatistical.Input where
  zeroFlag := i.zeroFlag
  tannisChange := tannisChange
  validNumThreshold := i.validNumThreshold
  correctPulseWidth := i.correctPulseWidth

/-- `gridRam false` is `grid_ramEx01`, the bank `tannis1`, and `gridRam true` is `grid_ramEx02`. -/
structure State where
  division : GridDivision.State
  statistical : GridStatistical.State
  gridRam : Bool → GridRam.State

def State.powerUp : State where
  division := GridDivision.State.powerUp
  statistical := GridStatistical.State.powerUp
  gridRam _ := GridRam.State.powerUp

/-- Port `a` of a bank. -/
def State.leftPort (s : State) (i : Input) (bank : Bool) : RamPort where
  rden := s.division.leftRden bank
  wren := s.division.leftWren bank
  addr := s.division.leftAddr i.toDivision
  data := s.division.leftWrdata bank

/-- Port `b` of a bank. -/
def State.rightPort (s : State) (bank : Bool) : RamPort where
  rden := s.statistical.rightRden bank
  wren := s.statistical.rightWren bank
  addr := s.statistical.rightAddr bank
  data := 0

def step (divide : BitVec 24 → BitVec 9 → BitVec 24) (s : State) (i : Input) : State where
  division := GridDivision.step divide s.division i.toDivision fun bank => (s.gridRam bank).qA
  statistical :=
    GridStatistical.step divide s.statistical (i.toStatistical s.division.tannisChange) fun bank =>
      (s.gridRam bank).qB
  gridRam bank := GridRam.step (s.gridRam bank) (s.leftPort i bank) (s.rightPort bank)

end SingleScan.CalcDistance
