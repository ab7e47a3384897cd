import SingleScan.Basic

/-!
# The motor

`filter_signal.v`, `feed.v`, `pwm_drive.v` and `motor_info.v`: the filter in front of the reading head,
the controller of the duty cycle, the driver, and the state machine that finds the zero of the encoder
wheel. `move_average` and `degree_info`, which `motor_info.v` instantiates, are left out; the average
that comes back to `feed` is an input here.
-/

namespace SingleScan

namespace FilterSignal

/-- The states of the one-hot register `cs`. -/
inductive Phase
  | idle | low2high | low2highAck0 | low2highAck1 | low2highAck2 | high | high2low | high2lowAck0
  | high2lowAck1 | high2lowAck2 | low
deriving DecidableEq, Repr

structure State where
  dataInR0 : Bool
  dataInR1 : Bool
  timeCnt : BitVec 8
  cs : Phase
  dataOut : Bool

def State.reset : State where
  dataInR0 := false
  dataInR1 := false
  timeCnt := 0
  cs := .idle
  dataOut := false

/-- `&time_cnt`. -/
def State.timeFlag (s : State) : Bool := s.timeCnt == 255

/-- The next state at a `time_flag`. -/
def Phase.sample (cs : Phase) (dataInR1 : Bool) : Phase :=
  match cs with
  | .idle => if dataInR1 then .low2high else .idle
  | .low2high => if dataInR1 then .low2highAck0 else .low
  | .low2highAck0 => if dataInR1 then .low2highAck1 else .idle
  | .low2highAck1 => if dataInR1 then .low2highAck2 else .idle
  | .low2highAck2 => if dataInR1 then .high else .idle
  | .high => if dataInR1 then .high else .high2low
  | .high2low => if dataInR1 then .high else .high2lowAck0
  | .high2lowAck0 => if dataInR1 then .high else .high2lowAck1
  | .high2lowAck1 => if dataInR1 then .high else .high2lowAck2
  | .high2lowAck2 => if dataInR1 then .high else .low
  | .low => if dataInR1 then .low2high else .low

def State.ns (s : State) : Phase := if s.timeFlag then s.cs.sample s.dataInR1 else s.cs

def step (s : State) (dataIn : Bool) : State where
  dataInR0 := dataIn
  dataInR1 := s.dataInR0
  timeCnt := s.timeCnt + 1
  cs := s.ns
  dataOut :=
    if s.cs = .low2highAck2 ∧ s.ns = .high then true
    else if s.cs = .high2lowAck2 ∧ s.ns = .low then false
    else s.dataOut

end FilterSignal

namespace Feed

/-- `TIME_CNT`. -/
def timeCntMax : BitVec 32 := 6250000 * 8

/-- `UNIT_VALUE`. -/
def unitValue : BitVec 16 := 5

structure Input where
  motorSpeed : BitVec 32
  cycleCnt : BitVec 32

structure State where
  timeCnt : BitVec 32
  dutyCnt : BitVec 16
  expectSpeed : BitVec 32
  highCnt : BitVec 16

def State.reset : State where
  timeCnt := timeCntMax
  dutyCnt := 480
  expectSpeed := 8300000
  highCnt := 460

/-- `timeout_flag`. -/
def State.timeoutFlag (s : State) : Bool := s.timeCnt == 0

/-- `duty_cnt` and `expect_speed` for a `motor_speed`. -/
def preset (motorSpeed : BitVec 32) : BitVec 16 × BitVec 32 :=
  match motorSpeed.toNat with
  | 8 => (290, 13800000)
  | 9 => (300, 13800000)
  | 10 => (340, 12500000)
  | 11 => (360, 11000000)
  | 12 => (380, 10400000)
  | 13 => (400, 9600000)
  | 14 => (420, 9000000)
  | 15 => (460, 8300000)
  | _ => (460, 8300000)

/-- `high_cnt` behind a `timeout_flag`. -/
def State.control (s : State) (cycleCnt : BitVec 32) : BitVec 16 :=
  if cycleCnt = 0 then
    if s.highCnt.toNat ≤ 480 then s.highCnt + unitValue else s.highCnt
  else if cycleCnt.toNat < s.expectSpeed.toNat then
    if s.dutyCnt.toNat < ((s.expectSpeed - cycleCnt) >>> 14).toNat then 100
    else s.highCnt - ((s.expectSpeed - cycleCnt) >>> 14).setWidth 16
  else if s.expectSpeed.toNat < cycleCnt.toNat then
    if s.dutyCnt.toNat < ((cycleCnt - s.expectSpeed) >>> 14).toNat then 550
    else s.highCnt + ((cycleCnt - s.expectSpeed) >>> 14).setWidth 16
  else s.highCnt

def step (s : State) (i : Input) : State where
  timeCnt := if s.timeoutFlag then timeCntMax else s.timeCnt - 1
  dutyCnt := (preset i.motorSpeed).1
  expectSpeed := (preset i.motorSpeed).2
  highCnt := if s.timeoutFlag then s.control i.cycleCnt else s.highCnt

def State.lowCnt (s : State) : BitVec 16 := 5000 - s.highCnt

end Feed

namespace PwmDrive

inductive Phase
  | idle | high | low
deriving DecidableEq, Repr

structure Input where
  enable : Bool
  highCnt : BitVec 16
  lowCnt : BitVec 16

structure State where
  highCntR0 : BitVec 16
  lowCntR0 : BitVec 16
  cs : Phase
  stateCnt : BitVec 16

/-- `rst_n` is low. The two copies of the limits have no reset. -/
def State.reset (s : State) : State := { s with cs := .idle, stateCnt := 0 }

/-- The registered limit of a phase. -/
def State.limit (s : State) : Phase → BitVec 16
  | .idle => 0
  | .high => s.highCntR0
  | .low => s.lowCntR0

/-- `state_cnt == high_cnt_r0-1`, and the same for `low_cnt_r0`, in 32 bits. -/
def State.phaseOver (s : State) : Bool :=
  s.stateCnt.setWidth 32 == (s.limit s.cs).setWidth 32 - 1

def State.ns (s : State) (enable : Bool) : Phase :=
  match s.cs with
  | .idle => if enable then .high else .idle
  | .high => if s.phaseOver then .low else .high
  | .low => if s.phaseOver then (if enable then .high else .idle) else .low

def step (s : State) (i : Input) : State where
  highCntR0 := i.highCnt
  lowCntR0 := i.lowCnt
  cs := s.ns i.enable
  stateCnt := if s.cs ≠ s.ns i.enable then 0 else s.stateCnt + 1

end PwmDrive

namespace MotorInfo

inductive Phase
  | idle | start1 | start2 | skip | work
deriving DecidableEq, Repr

structure Input where
  motorEnable : Bool
  pulseSig : Bool

/-- The two-bit registers hold bit 1 and bit 0. -/
structure State where
  pulseHighCnt : BitVec 32
  pulseLowCnt : BitVec 32
  pulseSigR : Bool × Bool
  cs : Phase
  motorStepCnt : BitVec 8
  subCnt : BitVec 32
  speedCnt : BitVec 32
  cycleCntR : BitVec 32
  stepCnt : BitVec 8
  timeCnt : BitVec 32
  validRegionFinishR : Bool × Bool

def State.reset : State where
  pulseHighCnt := 0
  pulseLowCnt := 0
  pulseSigR := (false, false)
  cs := .idle
  motorStepCnt := 0
  subCnt := 0
  speedCnt := 184365
  cycleCntR := 0
  stepCnt := 0
  timeCnt := 0
  validRegionFinishR := (false, false)

def State.pulseSigRise (s : State) : Bool := s.pulseSigR == (false, true)

def State.pulseSigFall (s : State) : Bool := s.pulseSigR == (true, false)

def State.motorBlock (s : State) (motorEnable : Bool) : Bool :=
  motorEnable && decide (3125000 ≤ s.timeCnt.toNat)

/-- The high time of the index tooth is long against the low time in front of it. -/
def State.indexTooth (s : State) : Bool :=
  decide ((s.pulseLowCnt + (s.pulseLowCnt >>> 1)).toNat < s.pulseHighCnt.toNat)

def State.ns (s : State) (motorEnable : Bool) : Phase :=
  if motorEnable then
    match s.cs with
    | .idle => if s.pulseSigFall then .start1 else .idle
    | .start1 => if s.pulseSigRise then .start2 else .start1
    | .start2 => if s.indexTooth then .skip else .start2
    | .skip => if s.pulseSigFall then .work else .skip
    | .work =>
        if s.motorBlock motorEnable then .idle
        else if 43 ≤ s.motorStepCnt.toNat then .start2
        else .work
  else .idle

def State.realZeroFlag (s : State) (motorEnable : Bool) : Bool :=
  s.cs == .start2 && s.ns motorEnable == .skip

def State.virtualZeroFlag (s : State) : Bool :=
  s.pulseSigFall && s.cs == .work && s.motorStepCnt == 8

def State.feedValid (s : State) : Bool :=
  decide (1 ≤ s.motorStepCnt.toNat ∧ s.motorStepCnt.toNat ≤ 42)

/-- `valid_region_finish`. -/
def State.validRegionFinish (s : State) : Bool := s.validRegionFinishR == (false, true)

def step (s : State) (i : Input) : State where
  pulseHighCnt :=
    if s.pulseSigFall then 0 else if i.pulseSig then s.pulseHighCnt + 1 else s.pulseHighCnt
  pulseLowCnt :=
    if s.pulseSigFall then 0 else if i.pulseSig then s.pulseLowCnt else s.pulseLowCnt + 1
  pulseSigR := (s.pulseSigR.2, i.pulseSig)
  cs := s.ns i.motorEnable
  motorStepCnt :=
    if s.cs = .work then
      if s.pulseSigFall then s.motorStepCnt + 1 else s.motorStepCnt
    else 0
  subCnt :=
    if s.cs = .work then
      if s.pulseSigFall then 0 else s.subCnt + 1
    else 0
  speedCnt := if s.cs = .work ∧ s.pulseSigFall then s.subCnt else s.speedCnt
  cycleCntR := if s.realZeroFlag i.motorEnable then 0 else s.cycleCntR + 1
  stepCnt :=
    if i.motorEnable then
      if s.virtualZeroFlag then 0 else if s.pulseSigFall then s.stepCnt + 1 else s.stepCnt
    else 0
  timeCnt :=
    if i.motorEnable then
      if s.pulseSigRise then 0
      else if s.timeCnt.toNat ≤ 3125000 then s.timeCnt + 1 else s.timeCnt
    else 0
  validRegionFinishR := (s.validRegionFinishR.2, s.stepCnt == 40)

end MotorInfo

end SingleScan
