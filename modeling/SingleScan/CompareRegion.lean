import SingleScan.CommandModule

/-!
# The comparison of a rotation with the alarm regions

`compare_region.v`: during a rotation every distance is compared with the boundaries of the three
layers, which a small state machine reads from the region RAMs. `region_flag` says which layers the
rotation left free, `alarm_io` is the debounced output. The registers of the layers are functions of
`Layer`.
-/

namespace SingleScan.CompareRegion

/-- The states of the one-hot register `cs`. -/
inductive Phase
  | idle | read | dly | compare | isEnd | over
deriving DecidableEq, Repr

structure Input where
  hwType : BitVec 2
  cycleEnable : Bool
  targetValid : Bool
  targetPos : BitVec 16
  minTargetSize : BitVec 16
  alarmOutputThreshold : BitVec 10
  rddata : Layer → BitVec 18

/-- `cycleEnableR` holds `cycle_enable_r[1]` and `cycle_enable_r[0]`. `rangeDesUm` is the register of
`mul_com` and `quotients` the pipeline of `div_31bits`, youngest first. -/
structure State where
  cycleEnableR : Bool × Bool
  alarmOutputThresholdR0 : BitVec 10
  alarmOutputThresholdR1 : BitVec 10
  alarmOutputThresholdCom : BitVec 10
  cs : Phase
  rdCnt : BitVec 16
  targetPosS0 : BitVec 16
  targetPosR0 : BitVec 16
  cnt : BitVec 8
  minTargetSizeR0 : BitVec 16
  minTargetSizeR1 : BitVec 16
  minTargetSizeF : BitVec 17
  flag : Layer → Bool
  changeR0 : BitVec 16
  judge : Layer → Bool
  sumR : Layer → BitVec 22
  sum : Layer → BitVec 12
  regionFlag : Layer → Bool
  alarmCntR : Layer → BitVec 10
  alarmIoR : Layer → Bool
  alarmIo : Layer → Bool
  rangeDesUm : BitVec 24
  quotients : Fin 16 → BitVec 24

/-- `rst_n` is low. The registers without a reset keep what they hold. -/
def State.reset (s : State) : State :=
  { s with
    cycleEnableR := (false, false)
    cs := .idle
    rdCnt := 0
    targetPosS0 := 0
    targetPosR0 := 0
    cnt := 0
    flag := fun _ => false
    judge := fun _ => false
    sumR := fun _ => 0
    sum := fun _ => 0
    regionFlag := fun _ => true
    alarmCntR := fun _ => 0
    alarmIoR := fun _ => false }

def State.cycleEnableRise (s : State) : Bool := s.cycleEnableR == (false, true)

def State.cycleEnableFall (s : State) : Bool := s.cycleEnableR == (true, false)

/-- `range_des`: the width in mm of one measuring point at the distance `target_pos_r0`, 17 clocks
later. -/
def State.rangeDes (s : State) : BitVec 16 := (s.quotients 15).setWidth 16

/-- `region0_rden`, the same wire for the three layers. -/
def State.regionRden (s : State) : Bool := s.cs == .read

/-- `region0_rdaddr`, the same wire for the three layers. -/
def State.regionRdaddr (s : State) : BitVec 10 := s.rdCnt.setWidth 10

/-- The next state `ns`. -/
def State.ns (s : State) (i : Input) : Phase :=
  match s.cs with
  | .idle => if s.cycleEnableRise then .read else .idle
  | .read => .compare
  | .compare => if i.targetValid then .isEnd else .compare
  | .isEnd => if s.rdCnt.toNat = targetNumber then .idle else .read
  | .dly => .idle
  | .over => .idle

/-- A distance is inside a boundary. A boundary of `FFFF` is none. -/
def inside (boundary : BitVec 18) (target : BitVec 16) : Bool :=
  boundary.setWidth 16 != 0xFFFF && target.toNat ≤ boundary.toNat

/-- `alarm_cnt_r0` counts the rotations in a row that were not free. -/
def alarmCount (free : Bool) (count : BitVec 10) : BitVec 10 :=
  if free then 0 else if 500 < count.toNat then 500 else count + 1

/-- The contour of a target ends: it jumps by more than 50 mm while the sum is small. -/
def State.contourEnds (s : State) (i : Input) (k : Layer) : Bool :=
  !i.cycleEnable || (50 < s.changeR0.toNat && s.judge k)

/-- A layer is hit, by a target of at least `min_target_size` if there is such a limit. -/
def State.hit (s : State) (i : Input) (k : Layer) : Bool :=
  if 0 < i.minTargetSize.toNat then !s.judge k else s.flag k

/-- One edge of `clk`. -/
def step (s : State) (i : Input) : State where
  cycleEnableR := (s.cycleEnableR.2, i.cycleEnable)
  alarmOutputThresholdR0 := i.alarmOutputThreshold
  alarmOutputThresholdR1 := s.alarmOutputThresholdR0
  alarmOutputThresholdCom :=
    if 500 < i.alarmOutputThreshold.toNat then 1
    else if s.alarmOutputThresholdR0 ≠ s.alarmOutputThresholdR1 then i.alarmOutputThreshold
    else s.alarmOutputThresholdCom
  cs := s.ns i
  rdCnt := if s.cs = .idle then 0 else if i.targetValid then s.rdCnt + 1 else s.rdCnt
  targetPosS0 :=
    if i.cycleEnable then if i.targetValid then s.targetPosR0 else s.targetPosS0 else 0
  targetPosR0 :=
    if i.cycleEnable then if i.targetValid then i.targetPos else s.targetPosR0 else 0
  cnt := if i.targetValid then 0 else if 40 < s.cnt.toNat then 41 else s.cnt + 1
  minTargetSizeR0 := i.minTargetSize
  minTargetSizeR1 := s.minTargetSizeR0
  minTargetSizeF :=
    if s.minTargetSizeR0 ≠ s.minTargetSizeR1 then i.minTargetSize.setWidth 17 * 10
    else s.minTargetSizeF
  flag := fun k => inside (i.rddata k) s.targetPosR0
  changeR0 :=
    if s.targetPosR0.toNat < s.targetPosS0.toNat then s.targetPosS0 - s.targetPosR0
    else s.targetPosR0 - s.targetPosS0
  judge := fun k => (s.sumR k + (s.sum k).setWidth 22).toNat < s.minTargetSizeF.toNat
  sumR := fun k =>
    if s.contourEnds i k then 0
    else if s.flag k && s.cnt == 30 then s.sumR k + s.rangeDes.setWidth 22
    else s.sumR k
  sum := fun k => if 0 < (s.sumR k).toNat ∧ s.flag k then s.rangeDes.setWidth 12 else 0
  regionFlag := fun k =>
    if i.cycleEnable then
      if s.cs = .read ∧ s.rdCnt = 0 then true
      else if s.cnt = 36 ∧ s.hit i k then false
      else s.regionFlag k
    else s.regionFlag k
  alarmCntR := fun k =>
    if s.cycleEnableFall then alarmCount (s.regionFlag k) (s.alarmCntR k) else s.alarmCntR k
  alarmIoR := fun k =>
    if i.targetValid then
      if s.hit i k ∧ s.alarmOutputThresholdCom.toNat ≤ (s.alarmCntR k).toNat then true
      else s.alarmIoR k
    else if s.cycleEnableFall ∧ s.regionFlag k then false
    else s.alarmIoR k
  alarmIo := fun k => if i.hwType = 1 then !s.alarmIoR k else s.alarmIoR k
  rangeDesUm := s.targetPosR0.setWidth 24 * 58
  quotients := fun stage =>
    if h : 0 < stage.val then s.quotients ⟨stage.val - 1, by omega⟩ else s.rangeDesUm / 1000

end SingleScan.CompareRegion
