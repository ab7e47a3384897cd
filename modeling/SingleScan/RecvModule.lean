import SingleScan.FinalDistance

/-!
# The capture of a shot

`recv_module.v`: some clocks after the laser is fired the words of the receiver are shifted into a
register, 25 of them, which then goes to `final_diatance` as the 400 points of the shot.
`calc_distance.v` wires the two together.
-/

namespace SingleScan

namespace RecvModule

structure Input where
  sendEn : Bool
  laserEnable : Bool
  rxDataout : BitVec 16
  delayCnt : BitVec 8

structure State where
  state : BitVec 4
  recvEn : Bool
  cnt : BitVec 8
  cnt1 : BitVec 32
  totalData1 : BitVec 400
  totalData : BitVec 400
  tolaEn : Bool
  tolaEnState : BitVec 2

/-- `rst` is low. -/
def State.reset : State where
  state := 0
  recvEn := false
  cnt := 0
  cnt1 := 0
  totalData1 := 0
  totalData := 0
  tolaEn := false
  tolaEnState := 0

/-- The wait between `send_en` and `recv_en`. -/
def delayStep (s : State) (i : Input) : State :=
  if s.state = 0 then
    { s with recvEn := false, cnt := 0, state := if i.sendEn then s.state + 1 else s.state }
  else if s.state = 1 then
    if s.cnt.toNat < i.delayCnt.toNat then { s with cnt := s.cnt + 1 }
    else if i.laserEnable then { s with state := s.state + 1, recvEn := true }
    else s
  else if s.state = 2 then { s with recvEn := false, state := 0 }
  else { s with state := 0 }

/-- One edge of `clk`. -/
def step (s : State) (i : Input) : State :=
  { delayStep s i with
    cnt1 := if s.recvEn then 0 else s.cnt1 + 1
    totalData1 :=
      if s.cnt1.toNat < 25 then i.rxDataout ++ s.totalData1.extractLsb' 16 384 else s.totalData1
    totalData := if s.cnt1.toNat < 25 then s.totalData else s.totalData1
    tolaEn := s.tolaEnState == 1 && s.cnt1 == 25
    tolaEnState := if s.recvEn then 1 else if i.sendEn then 0 else s.tolaEnState }

end RecvModule

namespace Capture

structure Input where
  recv : RecvModule.Input
  echo : Fin 4 → Echo

structure State where
  recv : RecvModule.State
  final : FinalDiatance.State

def State.reset (s : State) : State := ⟨.reset, s.final.reset⟩

/-- What `final_diatance` sees in a clock. -/
def State.finalInput (s : State) (i : Input) : FinalDiatance.Input where
  tolaEn := s.recv.tolaEn
  totalData := s.recv.totalData
  echo := i.echo

def step (s : State) (i : Input) : State where
  recv := RecvModule.step s.recv i.recv
  final := FinalDiatance.step s.final (s.finalInput i)

end Capture

end SingleScan
