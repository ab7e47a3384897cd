import SingleScan.AlarmPath

/-!
# The two clock domains

`command_module` runs on `clk_100m` and writes the region RAMs as the words of a download arrive; the
alarm path runs on the receiver clock and reads them. Nothing ties the two clocks together, so a run
is any sequence of edges of the one and the other. The parameters of the alarm path are the registers
of `command_module`, as `SingleScan.v` wires them.
-/

namespace SingleScan.Scanner

open Clocked

/-- What the measurement hands to `data_select` in a clock. -/
structure Measurement where
  zeroFlag : Bool
  target33Valid : Bool
  target33Pos : BitVec 16

/-- An edge of one of the clocks. -/
inductive Edge
  | clk100m (bus : Bus Word)
  | rxClkout (m : Measurement)

/-- `reads` logs what the RAMs gave for which address since the comparison left `IDLE`. -/
structure State where
  command : CommandModule.State
  alarm : AlarmPath.State
  reads : List (BitVec 10 × (Layer → BitVec 18))

def State.alarmInput (s : State) (m : Measurement) : AlarmPath.Input where
  select := {
    zeroFlag := m.zeroFlag
    angleOffset := s.command.param .zeroAngleRevise
    minDisplayDistance := s.command.param .minDisplayDistance
    dataInValid := m.target33Valid
    dataIn := m.target33Pos }
  minTargetSize := s.command.param .minTargetSize
  alarmOutputThreshold := s.command.param .alarmOutputThreshold
  hwType := s.command.param .hwType
  ram := s.command.regionRam

/-- One edge. -/
def step (s : State) : Edge → State
  | .clk100m bus => { s with command := CommandModule.step s.command bus }
  | .rxClkout m =>
      let alarm := AlarmPath.step s.alarm (s.alarmInput m)
      { s with
        alarm := alarm
        reads :=
          if s.alarm.compare.cs = .idle then []
          else if s.alarm.compare.regionRden then
            s.reads ++ [(s.alarm.compare.regionRdaddr, alarm.rddata)]
          else s.reads }

def run (s : State) (edges : List Edge) : State := edges.foldl step s

/-- The clocks of `clk_100m`. -/
def busOf (edges : List Edge) : List (Bus Word) :=
  edges.filterMap fun
    | .clk100m bus => some bus
    | .rxClkout _ => none

end SingleScan.Scanner
