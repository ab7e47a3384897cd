import SingleScan.Lib.Trace
import SingleScan.AdjustDistance

/-!
# The voltage of the photodiode

`cal_tem.v` takes the sign and the full degrees from a sample of the temperature sensor. `high_v.v` moves
the code of the voltage with them: down by `TEM_K` eighths for a degree below `POINT_TEM`, up by
`TEM_KH` eighths for a degree above.
-/

namespace SingleScan

namespace CalTem

structure Input where
  mAxisTdata : BitVec 16
  mAxisTvalid : Bool

/-- A register of two bits is a pair, the higher bit first. -/
structure State where
  temCountM : BitVec 8
  temCountEnR : Bool × Bool
  temCountEn : Bool
  temCount : BitVec 16

def State.reset : State where
  temCountM := 0
  temCountEnR := (false, false)
  temCountEn := false
  temCount := 0

def State.temCountEnFall (s : State) : Bool := s.temCountEnR == (true, false)

/-- One edge of `clk`. -/
def step (s : State) (i : Input) : State where
  temCountM :=
    if i.mAxisTdata.getLsbD 13 then
      ((8192 - (i.mAxisTdata.extractLsb' 0 13).setWidth 32) >>> 5).setWidth 8
    else ((i.mAxisTdata.extractLsb' 0 13) >>> 5).setWidth 8
  temCountEnR := (s.temCountEnR.2, i.mAxisTvalid)
  temCountEn := s.temCountEnFall
  temCount :=
    if s.temCountEnFall then
      0#2 ++ i.mAxisTdata.extractLsb' 13 1 ++ 0#5 ++ s.temCountM
    else s.temCount

end CalTem

namespace HighV

structure Settings where
  initialCount : BitVec 10
  temK : BitVec 8
  temKH : BitVec 8
  pointTem : BitVec 8

structure Input where
  mAxisTvalid : Bool
  temCount : BitVec 16
  settings : Settings

/-- `daCountChange` and `daCountChangeH` are the results of the multipliers `n1` and `n2`. -/
structure State where
  mAxisTvalidR : Bool × Bool
  setEnM : Bool
  setEnR : Bool × Bool
  temCountM : BitVec 16
  temChange : BitVec 8
  daCountChange : BitVec 18
  daCountChangeH : BitVec 18
  daCountM : BitVec 10
  daCount : BitVec 16
  setEn : Bool

/-- The multipliers have no reset and power up as 0. -/
def State.reset : State where
  mAxisTvalidR := (false, false)
  setEnM := false
  setEnR := (false, false)
  temCountM := 0
  temChange := 0
  daCountChange := 0
  daCountChangeH := 0
  daCountM := 0
  daCount := 0
  setEn := false

def State.mAxisTvalidFall (s : State) : Bool := s.mAxisTvalidR == (true, false)

def State.mAxisTvalidRise (s : State) : Bool := s.mAxisTvalidR == (false, true)

def State.setEnFall (s : State) : Bool := s.setEnR == (true, false)

/-- `MAX`, in the ten bits of its wire. -/
def Settings.max (c : Settings) : BitVec 10 := c.initialCount + 240

/-- `tem_change` for the temperature word `temCountM`, in eight bits. -/
def Settings.temChange (c : Settings) (temCountM : BitVec 16) : BitVec 8 :=
  let m := temCountM.extractLsb' 0 13
  let point := c.pointTem.setWidth 13
  if temCountM.getLsbD 13 then (m + point).setWidth 8
  else if point < m then (m - point).setWidth 8
  else (point - m).setWidth 8

/-- `da_count_m`, in ten bits. -/
def Settings.daCountM (c : Settings) (temCountM : BitVec 16) (daCountChange daCountChangeH : BitVec 18) :
    BitVec 10 :=
  if temCountM.getLsbD 13 ∨ temCountM.extractLsb' 0 13 ≤ c.pointTem.setWidth 13 then
    (c.initialCount.setWidth 12 - (daCountChange.extractLsb' 0 12 >>> 3)).setWidth 10
  else (c.initialCount.setWidth 12 + (daCountChangeH.extractLsb' 0 12 >>> 3)).setWidth 10

/-- `da_count`: the code, not above `MAX`, between four zeros and two. -/
def Settings.daCount (c : Settings) (daCountM : BitVec 10) : BitVec 16 :=
  if daCountM < c.max then 0#4 ++ daCountM ++ 0#2 else 0#4 ++ c.max ++ 0#2

/-- One edge of `clk`. -/
def step (s : State) (i : Input) : State where
  mAxisTvalidR := (s.mAxisTvalidR.2, i.mAxisTvalid)
  setEnM := s.mAxisTvalidFall
  setEnR := (s.setEnR.2, s.setEnM)
  temCountM := if s.mAxisTvalidRise then i.temCount else s.temCountM
  temChange := i.settings.temChange s.temCountM
  daCountChange := mulP (s.temChange.setWidth 10) i.settings.temK
  daCountChangeH := mulP (s.temChange.setWidth 10) i.settings.temKH
  daCountM := i.settings.daCountM s.temCountM s.daCountChange s.daCountChangeH
  daCount := i.settings.daCount s.daCountM
  setEn := s.setEnFall

end HighV

end SingleScan
