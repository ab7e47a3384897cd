import SingleScan.Lib.Bus
import SingleScan.Basic

/-!
# The command decoder of the FPGA

`command_module.v`: the receiver of the packets that the Nios core sends over the protocol FIFO.
A five-state machine takes a head word `0x1234/command`, a length word, the data words and a closing
word; the parameter registers, the `laser_presdo` shift register and the write ports of the three
region RAMs react to the data words.

The registers that hold one decoded word all have the same shape, `if (ns[DATA] & recv_command == M)
reg <= ...`. They are one table here: `Param` names them, and `width`, `command`, `reset` and
`decode` give the source's own values for each.
-/

namespace SingleScan.CommandModule

open Clocked

/-- The parameter registers. -/
inductive Param
  | motorEnable | laserFreq | motorSpeed | laserEnable | uploadEn
  | zeroDistanceRevise | zeroAngleRevise
  | grayDistanceRevise1 | grayDistanceRevise2 | grayDistanceRevise3
  | grayDistanceRevise4 | grayDistanceRevise5
  | laserPulseWidth | laserRecvDelay | noiseDiffSetting1 | noiseDiffSetting2
  | apdVoltSetting | tempVoltCof1 | tempVoltCof2 | tempVoltInflection
  | tempDistanceCof1 | tempDistanceCof2 | tempDistanceInflection | validNumThreshold
  | grayInflection1 | grayInflection2 | grayInflection3 | grayInflection4
  | minDisplayDistance | firstNoiseFilter | dustAlarmThreshold
  | daCyclePara1 | daCyclePara2 | daCyclePara3 | daCyclePara4 | daCyclePara5
  | daCyclePara6 | daCyclePara7 | daCyclePara8 | daCyclePara9
  | minTargetSize | alarmOutputThreshold | hwType
deriving DecidableEq, Repr

namespace Param

/-- The width of the register. -/
def width : Param → Nat
  | motorEnable | laserEnable | uploadEn => 1
  | hwType => 2
  | laserFreq => 32
  | zeroDistanceRevise | zeroAngleRevise | apdVoltSetting | minTargetSize => 16
  | grayInflection1 | grayInflection2 | grayInflection3 | grayInflection4 => 10
  | daCyclePara1 | daCyclePara2 | daCyclePara3 | daCyclePara4 | daCyclePara5 => 10
  | daCyclePara6 | daCyclePara7 | daCyclePara8 | daCyclePara9 => 10
  | alarmOutputThreshold => 10
  | _ => 8

/-- The command that loads the register. -/
def command : Param → BitVec 16
  | hwType => 0x4006
  | uploadEn => 0xb000
  | laserEnable => 0xa100
  | laserFreq => 0xa101
  | laserPulseWidth => 0xa102
  | laserRecvDelay => 0xa103
  | motorEnable => 0xa200
  | motorSpeed => 0xa201
  | zeroDistanceRevise => 0xa301
  | zeroAngleRevise => 0xa302
  | grayDistanceRevise1 => 0xa401
  | grayDistanceRevise2 => 0xa402
  | grayDistanceRevise3 => 0xa403
  | grayDistanceRevise4 => 0xa404
  | grayDistanceRevise5 => 0xa405
  | noiseDiffSetting1 => 0xa501
  | noiseDiffSetting2 => 0xa502
  | grayInflection1 => 0xa601
  | grayInflection2 => 0xa602
  | grayInflection3 => 0xa603
  | grayInflection4 => 0xa604
  | apdVoltSetting => 0xa702
  | tempVoltCof1 => 0xa703
  | tempVoltCof2 => 0xa704
  | tempVoltInflection => 0xa705
  | tempDistanceCof1 => 0xa706
  | tempDistanceCof2 => 0xa707
  | tempDistanceInflection => 0xa708
  | validNumThreshold => 0xa709
  | minDisplayDistance => 0xaa01
  | firstNoiseFilter => 0xaa03
  | dustAlarmThreshold => 0xab00
  | daCyclePara1 => 0xac01
  | daCyclePara2 => 0xac02
  | daCyclePara3 => 0xac03
  | daCyclePara4 => 0xac04
  | daCyclePara5 => 0xac05
  | daCyclePara6 => 0xac06
  | daCyclePara7 => 0xac07
  | daCyclePara8 => 0xac08
  | daCyclePara9 => 0xac09
  | minTargetSize => 0xad00
  | alarmOutputThreshold => 0xad01

/-- The value after reset. -/
def reset : (p : Param) → BitVec p.width
  | motorEnable => 1
  | laserFreq => 1000000
  | motorSpeed => 15
  | laserEnable => 1
  | uploadEn => 0
  | zeroDistanceRevise => 0
  | zeroAngleRevise => 135
  | grayDistanceRevise1 => 144
  | grayDistanceRevise2 => 40
  | grayDistanceRevise3 => 140
  | grayDistanceRevise4 => 140
  | grayDistanceRevise5 => 140
  | laserPulseWidth => 7
  | laserRecvDelay => 0
  | noiseDiffSetting1 => 180
  | noiseDiffSetting2 => 180
  | apdVoltSetting => 548
  | tempVoltCof1 => 38
  | tempVoltCof2 => 38
  | tempVoltInflection => 25
  | tempDistanceCof1 => 4
  | tempDistanceCof2 => 4
  | tempDistanceInflection => 25
  | validNumThreshold => 8
  | grayInflection1 => 30
  | grayInflection2 => 30
  | grayInflection3 => 120
  | grayInflection4 => 220
  | minDisplayDistance => 50
  | firstNoiseFilter => 3
  | dustAlarmThreshold => 35
  | daCyclePara1 => 133
  | daCyclePara2 => 152
  | daCyclePara3 => 172
  | daCyclePara4 => 191
  | daCyclePara5 => 200
  | daCyclePara6 => 181
  | daCyclePara7 => 162
  | daCyclePara8 => 143
  | daCyclePara9 => 123
  | minTargetSize => 0
  | alarmOutputThreshold => 1
  | hwType => 1

/-- What the register takes from a data word. The three switches compare the word with `ENABLE`, and
`motor_speed` ignores a word outside 8..15; the rest take the low bits. -/
def decode (p : Param) (old : BitVec p.width) (data : Word) : BitVec p.width :=
  match p with
  | motorEnable | laserEnable | uploadEn => if data = enable then 1 else 0
  | motorSpeed => if 8 ≤ data.toNat ∧ data.toNat ≤ 15 then data.setWidth 8 else old
  | p => data.setWidth p.width

end Param

/-- `HEAD_CODE`. -/
def headCode : BitVec 16 := 0x1234

/-- `M_LASER_PSEUDO`. -/
def laserPseudo : BitVec 16 := 0xa104

/-- `M_WR_REGION0`, `M_WR_REGION1` and `M_WR_REGION2`. -/
def wrRegion : Layer → BitVec 16
  | 0 => 0xb100
  | 1 => 0xb101
  | 2 => 0xb102

/-- The states of the one-hot register `cs`. -/
inductive Phase
  | idle | headCommand | dataLen | data | checksum | over
deriving DecidableEq, Repr

/-- The content of `region_Ex01` .. `region_Ex03`. -/
abbrev RegionRam := Layer → BitVec 10 → BitVec 18

structure State where
  cs : Phase
  recvCommand : BitVec 16
  dataLenReg : BitVec 16
  recvCnt : BitVec 16
  protocolFifoOutReady : Bool
  param : (p : Param) → BitVec p.width
  dacSetFlag : Bool
  laserPresdo : BitVec 240
  regionWren : Layer → Bool
  regionWrdata : Layer → BitVec 18
  regionRam : RegionRam

/-- The registers in reset. The content of the RAMs is not reset. -/
def State.reset (ram : RegionRam) : State where
  cs := .idle
  recvCommand := 0
  dataLenReg := 0
  recvCnt := 0
  protocolFifoOutReady := false
  param := Param.reset
  dacSetFlag := false
  laserPresdo := 0
  regionWren := fun _ => false
  regionWrdata := fun _ => 0
  regionRam := ram

/-- The next state `ns`. -/
def State.ns (s : State) (bus : Bus Word) : Phase :=
  match s.cs with
  | .idle => if bus.valid && bus.data.high == headCode then .headCommand else .idle
  | .headCommand => if bus.valid then .dataLen else .headCommand
  | .dataLen => if bus.valid then .data else .dataLen
  | .data => if s.recvCnt.toNat = s.dataLenReg.toNat + 1 then .checksum else .data
  | .checksum => if bus.valid then .over else .checksum
  | .over => .idle

/-- `region0_wraddr`, the same wire for the three layers. -/
def State.regionWraddr (s : State) : BitVec 10 := (s.recvCnt - 2).setWidth 10

/-- The RAMs behind their write ports at the next clock edge. -/
def State.writeRam (s : State) : RegionRam := fun k a =>
  if s.regionWren k ∧ a = s.regionWraddr then s.regionWrdata k else s.regionRam k a

/-- A parameter register loads when the machine is in `DATA` next and the command is its own. -/
def State.loads (s : State) (bus : Bus Word) (command : BitVec 16) : Prop :=
  s.ns bus = .data ∧ s.recvCommand = command

instance (s : State) (bus : Bus Word) (command : BitVec 16) : Decidable (s.loads bus command) :=
  inferInstanceAs (Decidable (_ ∧ _))

/-- One edge of `clk`. -/
def step (s : State) (bus : Bus Word) : State where
  cs := s.ns bus
  recvCommand :=
    if s.cs = .idle ∧ s.ns bus = .headCommand then bus.data.low else s.recvCommand
  dataLenReg :=
    if s.cs = .headCommand ∧ s.ns bus = .dataLen then bus.data.low
    else if s.cs = .idle then 0
    else s.dataLenReg
  recvCnt :=
    if s.cs = .idle then 0
    else if s.protocolFifoOutReady && bus.valid then s.recvCnt + 1
    else s.recvCnt
  protocolFifoOutReady := true
  param := fun p => if s.loads bus p.command then p.decode (s.param p) bus.data else s.param p
  dacSetFlag := s.loads bus Param.apdVoltSetting.command
  laserPresdo :=
    if s.loads bus laserPseudo ∧ bus.valid then
      s.laserPresdo.setWidth 208 ++ bus.data
    else s.laserPresdo
  regionWren := fun k =>
    if s.loads bus (wrRegion k) then s.protocolFifoOutReady && bus.valid else false
  regionWrdata := fun k => if s.loads bus (wrRegion k) then bus.data.setWidth 18 else 0
  regionRam := s.writeRam

/-- The registers after a sequence of clocks. -/
def run (s : State) (bus : List (Bus Word)) : State := bus.foldl step s

end SingleScan.CommandModule
