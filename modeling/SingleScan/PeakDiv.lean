import SingleScan.Basic

/-!
# The pulses of a return

`peak_div.v`: from the serial data of one return to the width and the distance of each pulse.
-/

namespace SingleScan.PeakDiv

structure Input where
  q : Bool
  dataEn : Bool
  noiseCnt : BitVec 8
  uppWith : BitVec 8

/-- `timeEnR` holds `time_en_r[1]` and `time_en_r[0]`. -/
structure State where
  timeEnR : Bool × Bool
  cnt : BitVec 12
  ampRegH : Bool
  timeReg1 : BitVec 12
  timeReg2 : BitVec 12
  ampRegMid : Bool
  alarmTime : BitVec 12
  time1 : BitVec 12
  time2 : BitVec 12
  timeEn1 : Bool
  timeEn2 : Bool
  timePluse : BitVec 12
  farEn1 : Bool
  farEnM : Bool
  timeEn : Bool
  midDistance : BitVec 18
  tarDis1 : BitVec 32
  tarDis2 : BitVec 32

/-- `rst` is low. The multipliers have no reset. -/
def State.reset (s : State) : State where
  timeEnR := (false, false)
  cnt := 0
  ampRegH := false
  timeReg1 := 0
  timeReg2 := 0
  ampRegMid := false
  alarmTime := 0
  time1 := 0
  time2 := 0
  timeEn1 := false
  timeEn2 := false
  timePluse := 0
  farEn1 := false
  farEnM := false
  timeEn := false
  midDistance := 0
  tarDis1 := s.tarDis1
  tarDis2 := s.tarDis2

def State.timeEnRise (s : State) : Bool := s.timeEnR == (true, false)

def State.farEn (s : State) : Bool := !s.farEnM && !s.farEn1

/-- `(alarm_time > NOISE_CNT) && (alarm_time < UPP_WITH)`. -/
def State.inLimits (s : State) (i : Input) : Bool :=
  decide (i.noiseCnt.toNat < s.alarmTime.toNat) && decide (s.alarmTime.toNat < i.uppWith.toNat)

/-- `mul_z`, one clock after its operands. -/
def mulZ (dataa : BitVec 12) (datab : BitVec 20) : BitVec 32 := dataa.setWidth 32 * datab.setWidth 32

/-- The rising and the falling edge, with the counter of the clocks. -/
def edgeStep (s : State) (i : Input) : State :=
  if i.dataEn then
    { s with
      cnt := s.cnt + 1
      ampRegH := i.q
      timeReg1 := if !s.ampRegH && i.q then s.cnt else s.timeReg1
      timeReg2 := if s.ampRegH && !i.q then s.cnt else s.timeReg2 }
  else { s with cnt := 0, ampRegH := false, timeReg1 := 0, timeReg2 := 0 }

/-- The edges of a pulse and its width, with the clock after its falling edge. -/
def widthStep (s : State) (i : Input) : State :=
  if i.dataEn then
    if s.ampRegMid then
      { s with
        alarmTime := s.timeReg2 - s.timeReg1
        time1 := s.timeReg1
        time2 := s.timeReg2
        timeEn1 := true }
    else { s with timeEn1 := false }
  else { s with alarmTime := 0, time1 := 0, time2 := 0 }

/-- The noise test. -/
def noiseStep (s : State) (i : Input) : State :=
  if i.dataEn then
    { s with
      farEnM := s.farEn1
      farEn1 := if s.inLimits i && s.timeEnRise then true else s.farEn1
      timeEn2 := s.inLimits i && s.timeEnRise
      timePluse := if s.inLimits i && s.timeEnRise then s.alarmTime else s.timePluse }
  else { s with farEn1 := false }

def step (s : State) (i : Input) : State :=
  { s with
    timeEnR := (s.timeEnR.2, s.timeEn1)
    cnt := (edgeStep s i).cnt
    ampRegH := (edgeStep s i).ampRegH
    timeReg1 := (edgeStep s i).timeReg1
    timeReg2 := (edgeStep s i).timeReg2
    ampRegMid := s.ampRegH && !i.q
    alarmTime := (widthStep s i).alarmTime
    time1 := (widthStep s i).time1
    time2 := (widthStep s i).time2
    timeEn1 := (widthStep s i).timeEn1
    timeEn2 := (noiseStep s i).timeEn2
    timePluse := (noiseStep s i).timePluse
    farEn1 := (noiseStep s i).farEn1
    farEnM := (noiseStep s i).farEnM
    timeEn := if i.dataEn then s.timeEn2 else s.timeEn
    midDistance :=
      if i.dataEn then
        if s.inLimits i then
          ((s.tarDis2.setWidth 19 + s.tarDis1.setWidth 19) >>> 1).setWidth 18
        else s.midDistance
      else 0
    tarDis1 := mulZ s.time1 75
    tarDis2 := mulZ s.time2 75 }

/-- What `time_en` hands over: `time_pluse` and `mid_distance`. -/
def echo (s : State) (_ : Input) : Option (BitVec 12 × BitVec 18) :=
  if s.timeEn then some (s.timePluse, s.midDistance) else none

end SingleScan.PeakDiv
