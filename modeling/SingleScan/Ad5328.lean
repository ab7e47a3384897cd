import SingleScan.Basic
import SingleScan.Lib.Serial

/-!
# The driver of the DAC

`ad5328_drive.v` configures the DAC and then hands a word to the serializer `ad5328_core.v` for each
request that it accepts; `ad5328_top.v` wires the two together.
-/

namespace SingleScan

namespace Ad5328Core

/-- The states of the one-hot register `cs`. -/
inductive Phase
  | idle | start | write | ldacN | over
deriving DecidableEq, Repr

structure State where
  cs : Phase
  stateCnt : BitVec 16
  divCnt : BitVec 8
  bitCnt : BitVec 8
  wrReqLock : Bool
  wrDataLock : BitVec 16
  ready : Bool
  ldacN : Bool
  syncN : Bool
  sclk : Bool
  dout : Bool

/-- `rst_n` is low. `bit_cnt` has no reset. -/
def State.reset (s : State) : State where
  cs := .idle
  stateCnt := 0
  divCnt := 0
  bitCnt := s.bitCnt
  wrReqLock := false
  wrDataLock := 0
  ready := false
  ldacN := false
  syncN := true
  sclk := true
  dout := false

/-- The next state `ns`. -/
def State.ns (s : State) : Phase :=
  match s.cs with
  | .idle => if s.wrReqLock then .start else .idle
  | .start => if s.stateCnt = 1 then .write else .start
  | .write => if s.bitCnt = 16 then .ldacN else .write
  | .ldacN => if s.stateCnt = 20 then .over else .ldacN
  | .over => if s.stateCnt = 10 then .idle else .over

/-- `ready` and the pins, by the next state. -/
def pins (s : State) : State :=
  match s.ns with
  | .idle => { s with ready := true, sclk := true, syncN := true, dout := false }
  | .start => { s with ready := false, syncN := false }
  | .write =>
      { s with
        ready := false
        sclk := decide (s.divCnt.toNat < 9)
        dout := s.wrDataLock.getLsbD (15 - s.bitCnt.toNat) }
  | .ldacN => { s with sclk := true }
  | .over => { s with ready := true, sclk := true, syncN := true, dout := false }

/-- One edge of `clk`. -/
def step (s : State) (wrReq : Bool) (wrData : BitVec 16) : State :=
  { pins s with
    cs := s.ns
    stateCnt := if s.cs ≠ s.ns then 0 else s.stateCnt + 1
    divCnt :=
      if s.cs = .write then if 19 ≤ s.divCnt.toNat then 0 else s.divCnt + 1 else 0
    bitCnt :=
      if s.cs = .write then if 19 ≤ s.divCnt.toNat then s.bitCnt + 1 else s.bitCnt else 0
    wrReqLock := if wrReq then true else if s.cs = .write then false else s.wrReqLock
    wrDataLock := if wrReq then wrData else s.wrDataLock }

/-- What the DAC sees. `ldac_n` stays low, so a word takes effect with its last bit. -/
def State.wires (s : State) : Serial.Wires := ⟨s.syncN, s.sclk, s.dout⟩

end Ad5328Core

namespace Ad5328Drive

/-- The states of the one-hot register `cs`. -/
inductive Phase
  | idle | configGain | configLdac | wait | set | over
deriving DecidableEq, Repr

structure State where
  cs : Phase
  stateCnt : BitVec 16
  wrReq : Bool
  wrData : BitVec 16

/-- `rst_n` is low. -/
def State.reset : State where
  cs := .idle
  stateCnt := 0
  wrReq := false
  wrData := 0

/-- The next state `ns`. -/
def State.ns (s : State) (dacSet ready : Bool) : Phase :=
  match s.cs with
  | .idle => if ready then .configLdac else .idle
  | .configLdac => if ready && 800 ≤ s.stateCnt.toNat then .configGain else .configLdac
  | .configGain => if ready && 800 ≤ s.stateCnt.toNat then .wait else .configGain
  | .wait => if ready && dacSet then .set else .wait
  | .set => if ready && 800 ≤ s.stateCnt.toNat then .wait else .set
  | .over => .over

/-- `{1'b0,3'd0,10'd520,2'd0}`. -/
def gainWord : BitVec 16 := 0x0820

/-- `{1'b1,3'd0,10'd60,2'd0}`. -/
def ldacWord : BitVec 16 := 0x80f0

/-- The word that is handed over in the next clock, by the next state. -/
def State.request (s : State) (ns : Phase) (dacValue : BitVec 16) : Option (BitVec 16) :=
  match ns with
  | .configGain => if s.stateCnt = 2 then some gainWord else none
  | .configLdac => if s.stateCnt = 2 then some ldacWord else none
  | .set => if s.stateCnt = 2 then some dacValue else none
  | .idle | .wait | .over => none

/-- One edge of `clk`. -/
def step (s : State) (dacSet : Bool) (dacValue : BitVec 16) (ready : Bool) : State where
  cs := s.ns dacSet ready
  stateCnt := if s.cs ≠ s.ns dacSet ready then 0 else s.stateCnt + 1
  wrReq := (s.request (s.ns dacSet ready) dacValue).isSome
  wrData := (s.request (s.ns dacSet ready) dacValue).getD 0

end Ad5328Drive

namespace Ad5328Top

structure Input where
  dacSet : Bool
  dacValue : BitVec 16

structure State where
  drive : Ad5328Drive.State
  core : Ad5328Core.State

def State.reset (s : State) : State := ⟨.reset, s.core.reset⟩

/-- One edge of `clk`. -/
def step (s : State) (i : Input) : State where
  drive := Ad5328Drive.step s.drive i.dacSet i.dacValue s.core.ready
  core := Ad5328Core.step s.core s.drive.wrReq s.drive.wrData

/-- The word that the driver hands to the serializer in a clock. -/
def State.handed (s : State) : Option (BitVec 16) :=
  if s.drive.wrReq then some s.drive.wrData else none

end Ad5328Top

namespace Ad5328Dac

/-- The driver with the DAC at its pins. -/
structure State where
  top : Ad5328Top.State
  dac : Serial.Sink 16

def State.reset (s : Ad5328Top.State) : State := ⟨s.reset, .empty⟩

/-- One edge of `clk`. -/
def step (sampling : Serial.Sampling) (s : State) (i : Ad5328Top.Input) : State where
  top := Ad5328Top.step s.top i
  dac := s.dac.edge sampling s.top.core.wires (Ad5328Top.step s.top i).core.wires

end Ad5328Dac

end SingleScan
