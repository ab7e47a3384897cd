import SingleScan.Lib.Trace
import SingleScan.Basic

/-!
# Dust on the window

`dust_alarm.v` counts the distances of a turn that are as near as the window. Such a distance goes on as
no echo, and at each zero mark the count of the turn is published.
-/

namespace SingleScan.DustAlarm

structure Input where
  dustAlarmThreshold : BitVec 8
  zeroFlag : Bool
  dataInValid : Bool
  dataIn : BitVec 16

structure State where
  dustCntR0 : BitVec 10
  dustCnt : BitVec 10
  dataOutValid : Bool
  dataOut : BitVec 16

/-- `data_out_valid` has no reset and powers up as 0. -/
def State.reset : State where
  dustCntR0 := 0
  dustCnt := 0
  dataOutValid := false
  dataOut := 0

/-- `data_in <= dust_alarm_threshold`. -/
def Input.near (i : Input) : Bool := i.dataIn.toNat ≤ i.dustAlarmThreshold.toNat

/-- One edge of `clk`. -/
def step (s : State) (i : Input) : State where
  dustCntR0 :=
    if i.zeroFlag then 0
    else if i.dataInValid then if i.near then s.dustCntR0 + 1 else s.dustCntR0
    else s.dustCntR0
  dustCnt := if i.zeroFlag then s.dustCntR0 else s.dustCnt
  dataOutValid := i.dataInValid
  dataOut := if i.dataInValid then if i.near then 0xFFFF else i.dataIn else s.dataOut

end SingleScan.DustAlarm
