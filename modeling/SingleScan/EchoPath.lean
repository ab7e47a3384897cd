import SingleScan.AdjustDistance
import SingleScan.FinalDistance
import SingleScan.PeakDiv

/-!
# From the samples of a shot to the list of its echoes

`distance_module.v` with all its stages: the serializer, the search for pulses, the three corrections and
the list. The wires between them cut what does not fit: 18 bits of `tem_adjust` and of `da_adjust` to 16,
and 12 bits of a width to 8.
-/

namespace SingleScan.EchoPath

structure Input where
  tolaEn : Bool
  totalData : BitVec 400
  noiseCnt : BitVec 8
  changeTh1 : BitVec 8
  settings : AdjustDistance.Settings
  pointTem : BitVec 8
  correctTem1 : BitVec 8
  correctTem2 : BitVec 8
  temCount : BitVec 16
  dacValue : BitVec 16
  dacMax : BitVec 10
  dacMin : BitVec 10

structure State where
  channel : DistanceModule.State
  peak : PeakDiv.State
  adjust : AdjustDistance.State
  tem : TemAdjust.State
  da : DaAdjust.State

/-- `rst` is low. -/
def State.reset (s : State) : State where
  channel := s.channel.reset
  peak := s.peak.reset
  adjust := s.adjust.reset
  tem := s.tem.reset
  da := s.da.reset

/-- The ports of `peak_div`. -/
def State.peakInput (s : State) (i : Input) : PeakDiv.Input where
  q := s.channel.serial.serialData
  dataEn := s.channel.serial.dataEn
  noiseCnt := i.noiseCnt
  uppWith := i.changeTh1

/-- The ports of `adjust_distance`. -/
def State.adjustInput (s : State) (i : Input) : AdjustDistance.Input where
  timePluse := s.peak.timePluse
  timeEn := s.peak.timeEn
  midDistance := s.peak.midDistance
  settings := i.settings

/-- The ports of `tem_adjust`. -/
def State.temInput (s : State) (i : Input) : TemAdjust.Input where
  adEn := s.adjust.adEn
  adDistance := s.adjust.adDistance
  timePluseA := s.adjust.timePluseA
  pointTem := i.pointTem
  correctTem1 := i.correctTem1
  correctTem2 := i.correctTem2
  temPer := i.temCount

/-- The ports of `da_adjust`. -/
def State.daInput (s : State) (i : Input) : DaAdjust.Input where
  dacValue := i.dacValue
  temEn := s.tem.temEn
  adDistance := (s.tem.temDistance.setWidth 16).setWidth 18
  dacMax := i.dacMax
  dacMin := i.dacMin

/-- The ports of `max_distance`. -/
def State.echo (s : State) : Echo where
  adEn := s.da.daEn
  adDistance := s.da.daDistance.setWidth 16
  timePluse := s.tem.timePluseT.setWidth 8

def step (divide : BitVec 16 → BitVec 16 → BitVec 16) (s : State) (i : Input) : State where
  channel := DistanceModule.step s.channel i.tolaEn i.totalData s.echo
  peak := PeakDiv.step s.peak (s.peakInput i)
  adjust := AdjustDistance.step s.adjust (s.adjustInput i)
  tem := TemAdjust.step s.tem (s.temInput i)
  da := DaAdjust.step divide s.da (s.daInput i)

end SingleScan.EchoPath
