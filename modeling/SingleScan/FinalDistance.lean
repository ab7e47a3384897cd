import SingleScan.Basic
import Mathlib.Data.Fin.Basic
import Mathlib.Logic.Function.Basic

/-!
# The four channels of the distance measurement

`final_distance.v` with `parallel_serial.v` and `max_distance.v`. A shot needs longer than the time to
the next one, so that four `distance_module` take the shots in turn, and a multiplexer hands on the
list of echoes of the one that is done. What the stages between the serializer and the list find
(`peak_div`, `adjust_distance`, `tem_adjust`, `da_adjust`) is an input here.
-/

namespace SingleScan

namespace ParallelSerial

structure State where
  midData : BitVec 400
  cnt : BitVec 9
  state : BitVec 3
  singleCnt : BitVec 10
  dataEn : Bool
  serialData : Bool

/-- `rst` is low. `serial_data` has no reset. -/
def State.reset (s : State) : State :=
  { s with midData := 0, cnt := 0, state := 0, singleCnt := 0, dataEn := false }

def step (s : State) (tolaEn : Bool) (parallelData : BitVec 400) : State :=
  let singleCnt :=
    if tolaEn then 0 else if s.singleCnt.toNat < 480 then s.singleCnt + 1 else 481
  let s := { s with singleCnt := singleCnt }
  if s.state = 0 then { s with cnt := 0, state := if tolaEn then s.state + 1 else 0 }
  else if s.state = 1 then { s with midData := parallelData, state := s.state + 1 }
  else if s.state = 2 then
    if s.cnt.toNat < 400 then
      { s with
        cnt := s.cnt + 1
        midData := s.midData >>> 1
        serialData := s.midData.getLsbD 0
        dataEn := true
        state := 2 }
    else { s with serialData := false, dataEn := false, state := 0, cnt := 0 }
  else s

end ParallelSerial

/-- What `da_adjust` and `tem_adjust` hand to `max_distance`. -/
structure Echo where
  adEn : Bool
  adDistance : BitVec 16
  timePluse : BitVec 8

namespace MaxDistance

/-- `dataEnR` holds `data_en_r[1]` and `data_en_r[0]`. -/
structure State where
  dataEnR : Bool × Bool
  multCnt : BitVec 3
  multPluse : BitVec 40
  multDistance : BitVec 80
  vaild : BitVec 16
  targetValid : Bool

/-- `rst` is low. -/
def State.reset : State where
  dataEnR := (false, false)
  multCnt := 0
  multPluse := 0
  multDistance := 0
  vaild := 0
  targetValid := false

def State.dataEnRise (s : State) : Bool := s.dataEnR == (false, true)

/-- The list and the number of its echoes. -/
def listStep (s : State) (dataEn : Bool) (echo : Echo) : State :=
  if dataEn then
    if s.multCnt.toNat < 5 then
      if echo.adEn then
        { s with
          multDistance := s.multDistance.setWidth 64 ++ echo.adDistance
          multPluse := s.multPluse.setWidth 32 ++ echo.timePluse
          multCnt := s.multCnt + 1 }
      else if s.dataEnRise then { s with multDistance := 0, multPluse := 0 }
      else s
    else { s with multCnt := 5 }
  else { s with multCnt := 0 }

def step (s : State) (dataEn : Bool) (echo : Echo) : State :=
  { listStep s dataEn echo with
    dataEnR := (s.dataEnR.2, dataEn)
    vaild :=
      if dataEn then 0 else if s.vaild.toNat ≤ 0xefff then s.vaild + 1 else 0xefff
    targetValid := s.vaild == 3 }

end MaxDistance

namespace DistanceModule

structure State where
  serial : ParallelSerial.State
  list : MaxDistance.State

def State.reset (s : State) : State := ⟨s.serial.reset, MaxDistance.State.reset⟩

def step (s : State) (tolaEn : Bool) (totalData : BitVec 400) (echo : Echo) : State where
  serial := ParallelSerial.step s.serial tolaEn totalData
  list := MaxDistance.step s.list s.serial.dataEn echo

end DistanceModule

namespace FinalDiatance

structure Input where
  tolaEn : Bool
  totalData : BitVec 400
  echo : Fin 4 → Echo

/-- The registers. Channel 0 is `distance_moduleEx01` with `tola_en_1` and `total_data_1`; `sel` and
`state` have two bits. -/
structure State where
  sel : Fin 4
  state : Fin 4
  tolaEn : Fin 4 → Bool
  totalData : Fin 4 → BitVec 400
  multPluse : BitVec 40
  multDistance : BitVec 80
  channel : Fin 4 → DistanceModule.State

/-- `rst` is low. -/
def State.reset (s : State) : State :=
  { s with
    sel := 0
    state := 0
    tolaEn := fun _ => false
    channel := fun k => (s.channel k).reset }

/-- `valid_m`. -/
def State.validM (s : State) : Bool :=
  (s.channel 0).list.targetValid || (s.channel 1).list.targetValid ||
    (s.channel 2).list.targetValid || (s.channel 3).list.targetValid

/-- `case(sel)`: the channel behind `sel` loads its data, and otherwise the list of channel `sel` goes
to the output. -/
def selectStep (s : State) (i : Input) : State :=
  if s.tolaEn (s.sel - 1) then
    { s with totalData := Function.update s.totalData (s.sel - 1) i.totalData }
  else if s.validM then
    { s with
      multPluse := (s.channel s.sel).list.multPluse
      multDistance := (s.channel s.sel).list.multDistance }
  else s

/-- `case(state)`: the strobe of channel `state` follows `tola_en`, and the one before is taken back. -/
def strobeStep (s : State) (tolaEn : Bool) : Fin 4 → Bool :=
  if tolaEn then Function.update s.tolaEn s.state true
  else Function.update (Function.update s.tolaEn s.state false) (s.state - 1) false

def step (s : State) (i : Input) : State :=
  { selectStep s i with
    sel := if i.tolaEn then s.sel + 1 else s.sel
    state := if i.tolaEn then s.state + 1 else s.state
    tolaEn := strobeStep s i.tolaEn
    channel := fun k => DistanceModule.step (s.channel k) (s.tolaEn k) (s.totalData k) (i.echo k) }

end FinalDiatance

end SingleScan
