import SingleScan.Lib.Trace
import SingleScan.AdjustDistance

/-!
# The modulation of the light

`compa_value.v` steps the light source through nine codes, `da_cycle_para1` to `da_cycle_para9`, one for
813 clocks. `da_adjust.v` corrects a distance for the code that the light has had.
-/

namespace SingleScan

namespace CompaValue

structure Input where
  daCyclePara : BitVec 90
  changeTh2 : BitVec 8
  laserEnable : Bool

/-- `da_cycle_para9` is in the highest bits. -/
def daCyclePara (daCyclePara : BitVec 90) (n : ℕ) : BitVec 10 := daCyclePara.extractLsb' (10 * (n - 1)) 10

/-- A register of two bits is a pair, the higher bit first. -/
structure State where
  daCycleParaR0 : BitVec 90
  daCycleParaR1 : BitVec 90
  daBvalue1 : BitVec 8
  daBvalue2 : BitVec 8
  bSetFlagR : Bool × Bool
  dacReg : BitVec 90
  cnt : BitVec 32
  dacSetR : Bool × Bool
  bCnt : BitVec 16
  dacValue : BitVec 16
  dacSet : Bool

/-- The codes of the reset, `da_cycle_para9` first. -/
def dacRegReset : BitVec 90 :=
  123#10 ++ 143#10 ++ 162#10 ++ 181#10 ++ 200#10 ++ 191#10 ++ 172#10 ++ 152#10 ++ 133#10

/-- `{flag, 3'd0, code, 4'd0}`. -/
def dacWord (flag : Bool) (code : BitVec 8) : BitVec 16 := BitVec.ofBool flag ++ 0#3 ++ code ++ 0#4

/-- The registers that follow the inputs have no reset and power up as 0. -/
def State.reset : State where
  daCycleParaR0 := 0
  daCycleParaR1 := 0
  daBvalue1 := 0
  daBvalue2 := 0
  bSetFlagR := (false, false)
  dacReg := dacRegReset
  cnt := 0
  dacSetR := (false, false)
  bCnt := 0
  dacValue := dacWord false 123
  dacSet := true

def cycCnt : ℕ := 813

def State.bSetFlag (s : State) : Bool := s.daBvalue1 != s.daBvalue2

def State.bSetFlagFall (s : State) : Bool := s.bSetFlagR == (false, true)

def State.cycleSetFlag (s : State) : Bool := s.daCycleParaR0 != s.daCycleParaR1

def State.dacSet1 (s : State) : Bool := s.cnt.toNat == cycCnt - 1

def State.dacSetFall (s : State) : Bool := s.dacSetR == (true, false)

def State.dacSetRise (s : State) : Bool := s.dacSetR == (false, true)

/-- One edge of `clk`. -/
def step (s : State) (i : Input) : State where
  daCycleParaR0 := i.daCyclePara
  daCycleParaR1 := s.daCycleParaR0
  daBvalue1 := i.changeTh2
  daBvalue2 := s.daBvalue1
  bSetFlagR := (s.bSetFlagR.2, s.bSetFlag)
  dacReg :=
    if s.cycleSetFlag then i.daCyclePara
    else if s.dacSet1 then s.dacReg.extractLsb' 0 80 ++ s.dacReg.extractLsb' 80 10
    else s.dacReg
  cnt := if s.dacSet1 then 0 else s.cnt + 1
  dacSetR := (s.dacSetR.2, s.dacSet1)
  bCnt := if 1000 ≤ s.bCnt.toNat then 1001 else s.bCnt + 1
  dacValue :=
    if s.dacSetRise && i.laserEnable then dacWord false (s.dacReg.extractLsb' 0 8)
    else if s.dacSetRise && !i.laserEnable then 0
    else if s.bCnt.toNat = 870 then dacWord true 155
    else if s.bSetFlag then dacWord true i.changeTh2
    else s.dacValue
  dacSet := s.dacSetFall || s.bCnt.toNat == 871 || s.bSetFlagFall

end CompaValue

/-! ### The codes and the distances -/

namespace Modulation

structure Input where
  compa : CompaValue.Input
  temEn : Bool
  adDistance : BitVec 18

structure State where
  compa : CompaValue.State
  adjust : DaAdjust.State

/-- `dac_max` and `dac_min` are wires from the settings. -/
def State.adjustInput (s : State) (i : Input) : DaAdjust.Input where
  dacValue := s.compa.dacValue
  temEn := i.temEn
  adDistance := i.adDistance
  dacMax := CompaValue.daCyclePara i.compa.daCyclePara 5
  dacMin := CompaValue.daCyclePara i.compa.daCyclePara 9

/-- One edge of `clk`. -/
def step (divide : BitVec 16 → BitVec 16 → BitVec 16) (s : State) (i : Input) : State where
  compa := CompaValue.step s.compa i.compa
  adjust := DaAdjust.step divide s.adjust (s.adjustInput i)

/-- The registers of `da_adjust` without a reset power up as 0. -/
def State.reset : State where
  compa := .reset
  adjust :=
    { dacChange := 0, dacBase := 0, daEn := false, daDistance := 0, quotients := fun _ => 0,
      product := 0 }

end Modulation

end SingleScan
