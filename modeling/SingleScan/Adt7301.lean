import SingleScan.Ad5328
import SingleScan.HighV

/-!
# The temperature sensor

`spi_master_core_t.v` reads a word from the sensor, `adt7301_top.v` asks for one every 1.6 s and turns it
into a code for the voltage of the photodiode. `Ranging_distance.v` hands the code to the DAC.
-/

namespace SingleScan

namespace SpiMasterCoreT

/-- The states of the one-hot register `cs`. -/
inductive Phase
  | idle | check | send
deriving DecidableEq, Repr

structure Input where
  enable : Bool
  sAxiTvalid : Bool
  miso : Bool

/-- `config_reg` is 0 in its lowest bits, and nothing is sent. -/
structure State where
  cs : Phase
  bitCnt : BitVec 8
  clkCnt : BitVec 16
  sclk : Bool
  mAxiTdata : BitVec 16

def State.reset : State where
  cs := .idle
  bitCnt := 0
  clkCnt := 0
  sclk := false
  mAxiTdata := 0

/-- `FREQ_CNT`. -/
def freqCnt : ℕ := (1000000000 / 1000000) / (1000000000 / 125000000)

/-- The next state `ns`. -/
def State.ns (s : State) (i : Input) : Phase :=
  match s.cs with
  | .idle => if i.enable then .check else .idle
  | .check => if i.enable then (if i.sAxiTvalid then .send else .check) else .idle
  | .send => if s.bitCnt = 16 then .check else .send

/-- `m_axi_tvalid`. The next state does not depend on the input there. -/
def State.mAxiTvalid (s : State) : Bool := s.cs == .send && s.bitCnt == 16

/-- One edge of `clk`. -/
def step (s : State) (i : Input) : State where
  cs := s.ns i
  bitCnt :=
    if s.cs = .send then if s.clkCnt.toNat = freqCnt - 1 then s.bitCnt + 1 else s.bitCnt else 0
  clkCnt :=
    if s.cs = .send then if s.clkCnt.toNat = freqCnt - 1 then 0 else s.clkCnt + 1 else s.clkCnt
  sclk := s.cs == .send && !decide (s.clkCnt.toNat ≤ freqCnt / 2 - 1)
  mAxiTdata :=
    if s.cs = .send ∧ s.clkCnt.toNat = freqCnt / 2 then Bits.shiftIn s.mAxiTdata i.miso
    else s.mAxiTdata

/-- What the sensor sees; `dout` is 0. -/
def State.wires (s : State) : Serial.Wires := ⟨s.cs == .idle, s.sclk, false⟩

end SpiMasterCoreT

namespace Adt7301Top

/-- `CYCLE_TIME`. -/
def cycleTime : BitVec 32 := 200000000

structure Input where
  adt7301Din : Bool
  readFlag : Bool
  apdHighDefaut : BitVec 16
  feedbackTem1 : BitVec 8
  feedbackTem2 : BitVec 8
  apdTemPoint : BitVec 8

structure State where
  setEnUp : Bool
  setEn : Bool
  tmpData : BitVec 16
  daCount : BitVec 16
  initialCount : BitVec 10
  timeCnt : BitVec 32
  enable : Bool
  core : SpiMasterCoreT.State
  calTem : CalTem.State
  highV : HighV.State

/-- `rst_n` is low. `tmp_data` has no reset, and `INITIAL_COUNT` takes its preset. -/
def State.reset (s : State) (apdHighDefaut : BitVec 16) : State where
  setEnUp := false
  setEn := false
  tmpData := s.tmpData
  daCount := 0
  initialCount := apdHighDefaut.extractLsb' 0 10
  timeCnt := 0
  enable := false
  core := .reset
  calTem := .reset
  highV := .reset

/-- `flag`: the preset is one that is let through. -/
def Input.flag (i : Input) : Bool :=
  decide ((i.apdHighDefaut.extractLsb' 0 10).toNat ≤ 680) &&
    decide (200 ≤ (i.apdHighDefaut.extractLsb' 0 10).toNat)

def State.readTempFlag (s : State) : Bool := s.timeCnt == cycleTime >>> 1

def State.settings (s : State) (i : Input) : HighV.Settings where
  initialCount := s.initialCount
  temK := i.feedbackTem1
  temKH := i.feedbackTem2
  pointTem := i.apdTemPoint

/-- One edge of `clk`. -/
def step (s : State) (i : Input) : State where
  setEnUp := i.readFlag && i.apdHighDefaut.getLsbD 15
  setEn := s.setEnUp || s.highV.setEn
  tmpData := 1#1 ++ 0#3 ++ i.apdHighDefaut.extractLsb' 0 10 ++ 0#2
  daCount := if s.setEnUp then s.tmpData else if s.highV.setEn then s.highV.daCount else s.daCount
  initialCount :=
    if i.apdHighDefaut.getLsbD 15 = false ∧ i.readFlag = true ∧ i.flag = true then
      i.apdHighDefaut.extractLsb' 0 10
    else s.initialCount
  timeCnt := if s.timeCnt = cycleTime then 0 else s.timeCnt + 1
  enable :=
    decide ((cycleTime >>> 1 - 100).toNat < s.timeCnt.toNat) &&
      decide (s.timeCnt.toNat < (cycleTime >>> 1 + 100).toNat)
  core := SpiMasterCoreT.step s.core ⟨s.enable, s.readTempFlag, i.adt7301Din⟩
  calTem := CalTem.step s.calTem ⟨s.core.mAxiTdata, s.core.mAxiTvalid⟩
  highV := HighV.step s.highV ⟨s.calTem.temCountEn, s.calTem.temCount, s.settings i⟩

end Adt7301Top

namespace ApdVoltage

/-- `temperature` is what the sensor holds. -/
structure Input where
  temperature : BitVec 16
  readFlag : Bool
  apdHighDefaut : BitVec 16
  feedbackTem1 : BitVec 8
  feedbackTem2 : BitVec 8
  apdTemPoint : BitVec 8

/-- `adt7301_topEx01` and `ad5328_topEx01`, with the sensor and the DAC at their pins. -/
structure State where
  reader : Adt7301Top.State
  sensor : Serial.Source
  driver : Ad5328Dac.State

/-- `rst_n` is low, with `preset` in `APD_HIGH_DEFAUT`. -/
def State.reset (s : State) (preset : BitVec 16) : State :=
  ⟨s.reader.reset preset, s.sensor, .reset s.driver.top⟩

def Input.port (i : Input) (sensor : Serial.Source) : Adt7301Top.Input where
  adt7301Din := sensor.data
  readFlag := i.readFlag
  apdHighDefaut := i.apdHighDefaut
  feedbackTem1 := i.feedbackTem1
  feedbackTem2 := i.feedbackTem2
  apdTemPoint := i.apdTemPoint

/-- One edge of `clk`. -/
def step (sampling : Serial.Sampling) (s : State) (i : Input) : State :=
  let reader := Adt7301Top.step s.reader (i.port s.sensor)
  { reader
    sensor := s.sensor.edge s.reader.core.wires reader.core.wires i.temperature
    driver := Ad5328Dac.step sampling s.driver ⟨s.reader.setEn, s.reader.daCount⟩ }

end ApdVoltage

end SingleScan
