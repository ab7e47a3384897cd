import SingleScan.GridDivision

/-!
# The distance of a window, out of the histogram

`grid_statistical.v`: with every change of `tannis_change` it scans the bank that is no longer written
for its fullest cell, reads that cell and its neighbours again, divides the sums by the number and clears
the bank. `expect_number`, `real_num` and `diff_number` are read by nobody.
-/

namespace SingleScan.GridStatistical

open GridDivision (gray number value)

/-- The states of the one-hot register `cs`. `START2` and `OVER` are never entered. -/
inductive Phase
  | idle | start1 | count | wait | reRead | result | clear | reset
deriving DecidableEq, Repr

structure Input where
  zeroFlag : Bool
  tannisChange : Bool
  validNumThreshold : BitVec 8
  correctPulseWidth : BitVec 8

/-- The registers that the data does not touch. `tannisChangeR` holds `tannis_change_r[1]` and
`tannis_change_r[0]`. -/
structure Control where
  tannisChangeR : Bool × Bool
  cs : Phase
  stateCnt : BitVec 16
  ramDataValidR0 : Bool
  ramDataValidR1 : Bool
  ramDataValidR2 : Bool
  ramDataCnt : BitVec 8
  targetValidR0 : Bool
  targetValidR1 : Bool
  targetValidR2 : Bool
  targetValid : Bool

def Control.powerUp : Control where
  tannisChangeR := (false, false)
  cs := .idle
  stateCnt := 0
  ramDataValidR0 := false
  ramDataValidR1 := false
  ramDataValidR2 := false
  ramDataCnt := 0
  targetValidR0 := false
  targetValidR1 := false
  targetValidR2 := false
  targetValid := false

/-- `tannis_change_rise | tannis_change_fall`. -/
def Control.changed (s : Control) : Bool := s.tannisChangeR.1 != s.tannisChangeR.2

/-- The next state `ns`. -/
def Control.ns (s : Control) (zeroFlag : Bool) : Phase :=
  match s.cs with
  | .idle => if zeroFlag then .start1 else .idle
  | .start1 => if s.changed then .count else .start1
  | .count => if s.stateCnt = 82 then .wait else .count
  | .wait => if s.stateCnt = 2 then .reRead else .wait
  | .reRead => if s.stateCnt = 2 then .result else .reRead
  | .result => if s.stateCnt = 2 then .clear else .result
  | .clear => if s.stateCnt = 84 then .reset else .clear
  | .reset => .start1

def Control.step (s : Control) (zeroFlag tannisChange : Bool) : Control where
  tannisChangeR := (s.tannisChangeR.2, tannisChange)
  cs := s.ns zeroFlag
  stateCnt := if s.cs ≠ s.ns zeroFlag then 0 else s.stateCnt + 1
  ramDataValidR0 := s.cs == .count || s.cs == .reRead
  ramDataValidR1 := s.ramDataValidR0
  ramDataValidR2 := s.ramDataValidR1
  ramDataCnt := if s.ramDataValidR2 then s.ramDataCnt + 1 else 0
  targetValidR0 := s.cs == .clear && s.stateCnt == 15
  targetValidR1 := s.targetValidR0
  targetValidR2 := s.targetValidR1
  targetValid := s.targetValidR2

/-- A right port is that of `tannis1` at `false` and that of `tannis2` at `true`. `mod10Ex01`, `mod10Ex02`
and `mod10Ex03` give `target_pos_r0`, `target_gray_r0` and `target_gray_r1`. -/
structure State extends Control where
  rightWren : Bool → Bool
  rightRden : Bool → Bool
  rightAddr : Bool → BitVec 8
  curRangePointNumber : BitVec 8
  maxRangePointPos : BitVec 8
  beforeInfo : BitVec 48
  middleInfo : BitVec 48
  afterInfo : BitVec 48
  denom : BitVec 9
  posNumer : BitVec 24
  grayNumer : BitVec 16
  mod10Ex01 : Mod10.State
  mod10Ex02 : Mod10.State
  mod10Ex03 : Mod10.State
  targetPos : BitVec 16
  targetGray : BitVec 16

def State.powerUp : State where
  toControl := Control.powerUp
  rightWren _ := false
  rightRden _ := false
  rightAddr _ := 0
  curRangePointNumber := 0
  maxRangePointPos := 0
  beforeInfo := 0
  middleInfo := 0
  afterInfo := 0
  denom := 0
  posNumer := 0
  grayNumer := 0
  mod10Ex01 := Mod10.State.powerUp
  mod10Ex02 := Mod10.State.powerUp
  mod10Ex03 := Mod10.State.powerUp
  targetPos := 0
  targetGray := 0

/-- The address of the port that `tannis_change` selects. -/
def nextAddr (s : State) (addr : BitVec 8) : BitVec 8 :=
  if s.cs = .count then s.stateCnt.setWidth 8
  else if s.cs = .reRead then s.maxRangePointPos - 1 + s.stateCnt.setWidth 8
  else if s.cs = .clear then s.stateCnt.setWidth 8
  else if s.cs = .reset then 0
  else addr

/-- The fullest cell so far. The cell behind the last one, which counts the shots without an echo, has to
do with a small `cur_range_point_number`. -/
def scanStep (s : State) (validNumThreshold : BitVec 8) (data : BitVec 48) : State :=
  if s.cs = .clear ∧ s.stateCnt = 20 then
    { s with maxRangePointPos := 0, curRangePointNumber := 0 }
  else if s.ramDataValidR1 then
    if s.curRangePointNumber.toNat < (number data).toNat then
      if s.rightAddr false = 82 ∨ s.rightAddr true = 82 then
        if s.curRangePointNumber.toNat < validNumThreshold.toNat then
          { s with curRangePointNumber := number data, maxRangePointPos := s.ramDataCnt }
        else s
      else { s with curRangePointNumber := number data, maxRangePointPos := s.ramDataCnt }
    else s
  else s

/-- `before_info`, `middle_info` and `after_info`. -/
def infoStep (s : State) (data : BitVec 48) : State :=
  if s.cs = .start1 then { s with beforeInfo := 0, middleInfo := 0, afterInfo := 0 }
  else if s.cs = .result then
    if s.stateCnt = 0 then { s with beforeInfo := data }
    else if s.stateCnt = 1 then { s with middleInfo := data }
    else if s.stateCnt = 2 then { s with afterInfo := data }
    else s
  else s

/-- The cell alone. -/
def State.single (s : State) : State :=
  { s with
    posNumer := value s.middleInfo
    denom := (number s.middleInfo).setWidth 9
    grayNumer := gray s.middleInfo }

/-- The cell with one of its neighbours. -/
def State.merged (s : State) (info : BitVec 48) : State :=
  { s with
    posNumer := value s.middleInfo + value info
    denom := (number s.middleInfo).setWidth 9 + (number info).setWidth 9
    grayNumer := gray s.middleInfo + gray info }

/-- A neighbour counts if it has more than a sixteenth of the distances. -/
def mergeStep (s : State) : State :=
  if s.cs = .clear ∧ s.stateCnt = 2 then
    if s.maxRangePointPos ≠ 0 ∧ 20 ≤ s.curRangePointNumber.toNat then
      let limit := (number s.middleInfo).toNat / 16
      let before := (number s.beforeInfo).toNat
      let after := (number s.afterInfo).toNat
      if before ≤ limit ∧ after ≤ limit then s.single
      else if limit < before ∧ after ≤ limit then s.merged s.beforeInfo
      else if before ≤ limit ∧ limit < after then s.merged s.afterInfo
      else if limit < before ∧ limit < after then
        if after < before then s.merged s.beforeInfo else s.merged s.afterInfo
      else s
    else s
  else s

/-- `target_pos_r0`, `target_gray_r0` and `target_gray_r1`. -/
def State.targetPosR0 (s : State) : BitVec 16 := s.mod10Ex01.quotient.setWidth 16

def State.targetGrayR0 (s : State) : BitVec 16 := s.mod10Ex02.quotient.setWidth 16

def State.targetGrayR1 (s : State) : BitVec 16 := s.mod10Ex03.quotient.setWidth 16

/-- A gray value near `CORRECT_PULSE_WIDTH` makes the distance 18 mm longer. The comparison is 32 bits
wide. -/
def State.nearPulseWidth (s : State) (correctPulseWidth : BitVec 8) : Bool :=
  (correctPulseWidth.setWidth 32 - 3).toNat ≤ s.targetGrayR0.toNat &&
    s.targetGrayR0.toNat < (correctPulseWidth.setWidth 32 + 3).toNat

/-- `rddata bank` is `tannis1_right_rddata` or `tannis2_right_rddata`. -/
def step (divide : BitVec 24 → BitVec 9 → BitVec 24) (s : State) (i : Input)
    (rddata : Bool → BitVec 48) : State :=
  let data := rddata (!i.tannisChange)
  let scan := scanStep s i.validNumThreshold data
  let info := infoStep s data
  let merge := mergeStep s
  { toControl := s.toControl.step i.zeroFlag i.tannisChange
    rightWren := fun bank => bank != i.tannisChange && s.cs == .clear
    rightRden := fun bank =>
      bank != i.tannisChange && (s.cs == .count || s.cs == .reRead || s.cs == .reset)
    rightAddr := fun bank => if bank ≠ i.tannisChange then nextAddr s (s.rightAddr bank) else 0
    curRangePointNumber := scan.curRangePointNumber
    maxRangePointPos := scan.maxRangePointPos
    beforeInfo := info.beforeInfo
    middleInfo := info.middleInfo
    afterInfo := info.afterInfo
    denom := merge.denom
    posNumer := merge.posNumer
    grayNumer := merge.grayNumer
    mod10Ex01 := Mod10.step divide s.mod10Ex01 s.posNumer s.denom
    mod10Ex02 := Mod10.step divide s.mod10Ex02 (s.grayNumer.setWidth 24 * 10) s.denom
    mod10Ex03 := Mod10.step divide s.mod10Ex03 (s.grayNumer.setWidth 24) s.denom
    targetPos :=
      if s.nearPulseWidth i.correctPulseWidth then s.targetPosR0 + 18 else s.targetPosR0
    targetGray := s.targetGrayR1 }

end SingleScan.GridStatistical
