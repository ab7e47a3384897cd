import SingleScan.DataSelect
import SingleScan.CompareRegion

/-!
# The alarm path

`data_select`, the read ports of the three region RAMs and `compare_region` behind each other, all on
the receiver clock, as `SingleScan.v` wires them. What the RAMs contain is an input: `command_module`
writes them on another clock.
-/

namespace SingleScan.AlarmPath

open Clocked

structure Input where
  select : DataSelect.Input
  minTargetSize : BitVec 16
  alarmOutputThreshold : BitVec 10
  hwType : BitVec 2
  ram : CommandModule.RegionRam

/-- `rddata` are the output registers of the RAMs. -/
structure State where
  select : DataSelect.State
  compare : CompareRegion.State
  rddata : Layer → BitVec 18

def State.reset (compare : CompareRegion.State) (rddata : Layer → BitVec 18) : State where
  select := .reset
  compare := compare.reset
  rddata := rddata

/-- What `compare_region` sees in a clock. -/
def State.compareInput (s : State) (i : Input) : CompareRegion.Input where
  hwType := i.hwType
  cycleEnable := s.select.cycleEnable
  targetValid := s.select.dataOutValid i.select
  targetPos := s.select.dataOut i.select
  minTargetSize := i.minTargetSize
  alarmOutputThreshold := i.alarmOutputThreshold
  rddata := s.rddata

/-- One edge of the receiver clock. -/
def step (s : State) (i : Input) : State where
  select := DataSelect.step s.select i.select
  compare := CompareRegion.step s.compare (s.compareInput i)
  rddata := fun k =>
    if s.compare.regionRden then i.ram k s.compare.regionRdaddr else s.rddata k

/-- The distance that `target_valid` hands over in a clock. -/
def sample (s : State) (i : Input) : Option (BitVec 16) :=
  if s.select.dataOutValid i.select then some (s.select.dataOut i.select) else none

/-- The state before clock `t`. -/
def run (s : State) (input : ℕ → Input) (t : ℕ) : State := trace step s input t

end SingleScan.AlarmPath
