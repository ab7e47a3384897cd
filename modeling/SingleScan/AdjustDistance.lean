import SingleScan.Basic

/-!
# The corrections of a distance

`adjust_distance.v`, `tem_adjust.v` and `da_adjust.v`: what is taken from the distance of a pulse for
its width, for the temperature and for the voltage of the photodiode.
-/

namespace SingleScan

/-- `mul_p`, one clock after its operands. -/
def mulP (dataa : BitVec 10) (datab : BitVec 8) : BitVec 18 := dataa.setWidth 18 * datab.setWidth 18

namespace AdjustDistance

/-- The inflections and the slopes between them. -/
structure Settings where
  correctCntM : BitVec 8
  correctCntB : BitVec 8
  correctCntN : BitVec 8
  correctCnt4 : BitVec 8
  correctCnt5 : BitVec 8
  pointCnt1 : BitVec 10
  pointCnt2 : BitVec 10
  pointCnt3 : BitVec 10
  pointCnt4 : BitVec 10

structure Input where
  timePluse : BitVec 12
  timeEn : Bool
  midDistance : BitVec 18
  settings : Settings

/-- `adDistance1`, …, `adDistance43` are the results of the multipliers `n1`, …, `n8`. -/
structure State where
  state : BitVec 3
  adEn : Bool
  timePluseA : BitVec 12
  adDistance : BitVec 16
  time1 : BitVec 10
  time21 : BitVec 10
  time2 : BitVec 10
  time3 : BitVec 10
  time32 : BitVec 10
  time4 : BitVec 10
  time43 : BitVec 10
  time5 : BitVec 10
  timePluse1 : BitVec 12
  timePluse2 : BitVec 12
  timePluse3 : BitVec 12
  adDistanceM : BitVec 18
  adDistanceM2 : BitVec 18
  adDistanceM3 : BitVec 18
  adDistance1 : BitVec 18
  adDistance2 : BitVec 18
  adDistance3 : BitVec 18
  adDistance4 : BitVec 18
  adDistance5 : BitVec 18
  adDistance21 : BitVec 18
  adDistance32 : BitVec 18
  adDistance43 : BitVec 18

/-- `rst` is low. The multipliers have no reset. -/
def State.reset (s : State) : State :=
  { s with
    state := 0
    adEn := false
    timePluseA := 0
    adDistance := 0
    time1 := 0
    time21 := 0
    time2 := 0
    time3 := 0
    time32 := 0
    time4 := 0
    time43 := 0
    time5 := 0
    timePluse1 := 0
    timePluse2 := 0
    timePluse3 := 0
    adDistanceM := 0
    adDistanceM2 := 0
    adDistanceM3 := 0 }

/-- The branches of the conditions of states 1 and 4. -/
inductive Segment
  | below1 | upTo2 | upTo3 | upTo4 | above4
deriving DecidableEq, Repr

/-- The first condition that a scaled width meets. -/
def Settings.segment (c : Settings) (timePluse : BitVec 12) : Option Segment :=
  if timePluse.toNat ≤ c.pointCnt1.toNat then some .below1
  else if c.pointCnt1.toNat < timePluse.toNat ∧ timePluse.toNat ≤ c.pointCnt2.toNat then some .upTo2
  else if c.pointCnt2.toNat < timePluse.toNat ∧ timePluse.toNat ≤ c.pointCnt3.toNat then some .upTo3
  else if c.pointCnt3.toNat < timePluse.toNat ∧ timePluse.toNat ≤ c.pointCnt4.toNat then some .upTo4
  else if c.pointCnt4.toNat < timePluse.toNat then some .above4
  else none

/-- `x - POINT_CNT`, in ten bits. -/
def beyond (x : BitVec 12) (pointCnt : BitVec 10) : BitVec 10 := (x - pointCnt.setWidth 12).setWidth 10

/-- `POINT_CNT - x`, in ten bits. -/
def under (x : BitVec 12) (pointCnt : BitVec 10) : BitVec 10 := (pointCnt.setWidth 12 - x).setWidth 10

/-- State 1: the lengths that the slopes are taken over. -/
def lengthStep (s : State) (c : Settings) : State :=
  let s := { s with
    time21 := c.pointCnt2 - c.pointCnt1
    time32 := c.pointCnt3 - c.pointCnt2
    time43 := c.pointCnt4 - c.pointCnt3
    timePluse2 := s.timePluse1 }
  match c.segment s.timePluse1 with
  | some .below1 => { s with time1 := under s.timePluse1 c.pointCnt1, state := 2 }
  | some .upTo2 => { s with time2 := beyond s.timePluse1 c.pointCnt1, state := 2 }
  | some .upTo3 => { s with time3 := beyond s.timePluse1 c.pointCnt2, state := 2 }
  | some .upTo4 => { s with time4 := beyond s.timePluse1 c.pointCnt3, state := 2 }
  | some .above4 => { s with time5 := beyond s.timePluse1 c.pointCnt4, state := 2 }
  | none => s

/-- `[17:4]` of a product. -/
def high (product : BitVec 18) : BitVec 18 := (product.extractLsb' 4 14).setWidth 18

/-- State 4: the corrected distance. -/
def distanceStep (s : State) (i : Input) : State :=
  let s := { s with timePluse3 := s.timePluse2 }
  match i.settings.segment s.timePluse2 with
  | some .below1 =>
      { s with adDistance := (i.midDistance + high s.adDistance1).setWidth 16, state := 5 }
  | some .upTo2 =>
      { s with adDistance := (i.midDistance - high s.adDistance2).setWidth 16, state := 5 }
  | some .upTo3 =>
      { s with adDistance := (i.midDistance - s.adDistanceM).setWidth 16, state := 5 }
  | some .upTo4 =>
      { s with
        adDistance := (i.midDistance - (high s.adDistance4 + s.adDistanceM2)).setWidth 16
        state := 5 }
  | some .above4 =>
      { s with
        adDistance := (i.midDistance - (s.adDistanceM2 + s.adDistanceM3)).setWidth 16
        state := 5 }
  | none => s

/-- `case(state)`. -/
def fsmStep (s : State) (i : Input) : State :=
  if s.state = 0 then
    if i.timeEn then
      { s with adEn := false, state := s.state + 1, timePluse1 := i.timePluse <<< 2 }
    else { s with adEn := false, state := 0 }
  else if s.state = 1 then lengthStep s i.settings
  else if s.state = 2 then { s with state := 3 }
  else if s.state = 3 then
    { s with
      adDistanceM := high s.adDistance21 + high s.adDistance3
      adDistanceM2 := high s.adDistance21 + high s.adDistance32
      adDistanceM3 := high s.adDistance5 + high s.adDistance43
      state := 4 }
  else if s.state = 4 then distanceStep s i
  else if s.state = 5 then
    { s with
      adEn := true
      timePluseA := (s.timePluse3.extractLsb' 2 10).setWidth 12
      state := 0
      timePluse1 := 0
      timePluse2 := 0
      timePluse3 := 0
      adDistanceM := 0
      adDistanceM2 := 0
      adDistanceM3 := 0 }
  else s

def step (s : State) (i : Input) : State :=
  { fsmStep s i with
    adDistance1 := mulP s.time1 i.settings.correctCntM
    adDistance2 := mulP s.time2 i.settings.correctCntB
    adDistance3 := mulP s.time3 i.settings.correctCntN
    adDistance4 := mulP s.time4 i.settings.correctCnt4
    adDistance5 := mulP s.time5 i.settings.correctCnt5
    adDistance21 := mulP s.time21 i.settings.correctCntB
    adDistance32 := mulP s.time32 i.settings.correctCntN
    adDistance43 := mulP s.time43 i.settings.correctCnt4 }

end AdjustDistance

namespace TemAdjust

structure Input where
  adEn : Bool
  adDistance : BitVec 16
  timePluseA : BitVec 12
  pointTem : BitVec 8
  correctTem1 : BitVec 8
  correctTem2 : BitVec 8
  temPer : BitVec 16

/-- `temDistance1` and `temDistance2` are the results of the multipliers. -/
structure State where
  temChange : BitVec 8
  temDistance : BitVec 18
  temEn1 : Bool
  timePluseT : BitVec 12
  temEn : Bool
  temDistance1 : BitVec 18
  temDistance2 : BitVec 18

/-- `rst` is low. -/
def State.reset (s : State) : State :=
  { s with temChange := 0, temDistance := 0, temEn1 := false, timePluseT := 0, temEn := false }

/-- The distance less or plus the correction for the temperature. -/
def State.correct (s : State) (i : Input) (adDistance : BitVec 16) : BitVec 18 :=
  if i.temPer.getLsbD 13 || decide (i.temPer.toNat < i.pointTem.toNat) then
    adDistance.setWidth 18 + s.temDistance2 >>> 2
  else adDistance.setWidth 18 - s.temDistance1 >>> 2

def step (s : State) (i : Input) : State where
  temChange :=
    if i.temPer.getLsbD 13 then (i.temPer.extractLsb' 0 7).setWidth 8 + i.pointTem
    else if i.temPer.toNat < i.pointTem.toNat then i.pointTem - i.temPer.setWidth 8
    else i.temPer.setWidth 8 - i.pointTem
  temDistance := s.correct i i.adDistance
  temEn1 := i.adEn
  timePluseT := if i.adEn then i.timePluseA else s.timePluseT
  temEn := s.temEn1
  temDistance1 := mulP (s.temChange.setWidth 10) i.correctTem1
  temDistance2 := mulP (s.temChange.setWidth 10) i.correctTem2

end TemAdjust

namespace DaAdjust

structure Input where
  dacValue : BitVec 16
  temEn : Bool
  adDistance : BitVec 18
  dacMax : BitVec 10
  dacMin : BitVec 10

/-- `quotients` is the pipeline of `div_16`, youngest first, and `product` the result of `mul_p`. -/
structure State where
  dacChange : BitVec 10
  dacBase : BitVec 10
  daEn : Bool
  daDistance : BitVec 18
  quotients : Fin 12 → BitVec 16
  product : BitVec 18

/-- `rst` is low. -/
def State.reset (s : State) : State := { s with daEn := false, daDistance := 0 }

def State.kDA (s : State) : BitVec 16 := s.quotients 11

def State.afterDistance (s : State) : BitVec 16 := s.product.setWidth 16

/-- The distance less the correction for the voltage. -/
def State.correct (s : State) (adDistance : BitVec 18) : BitVec 18 :=
  adDistance - (s.afterDistance >>> 5).setWidth 18

/-- `divide` is the division of `lpm_divide`. -/
def step (divide : BitVec 16 → BitVec 16 → BitVec 16) (s : State) (i : Input) : State where
  dacChange := (i.dacValue.extractLsb' 4 8).setWidth 10 - i.dacMin
  dacBase := i.dacMax - i.dacMin
  daEn := i.temEn
  daDistance := if i.temEn then s.correct i.adDistance else s.daDistance
  quotients k :=
    if h : 0 < k.val then s.quotients ⟨k.val - 1, by omega⟩
    else divide 2400 (s.dacBase.setWidth 16)
  product := mulP s.dacChange (s.kDA.setWidth 8)

end DaAdjust

end SingleScan
