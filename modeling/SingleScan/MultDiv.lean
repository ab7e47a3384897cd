import SingleScan.FinalDistance

/-!
# The replay of a list of echoes

`mult_div.v`: with `valid_m` a shift register takes the list of a shot in, and a counter hands the
echoes on one by one. A list is packed as `max_distance` collects it, the last echo in the lowest slot.
-/

namespace SingleScan.MultDiv

structure Input where
  multPluse : BitVec 40
  multDistance : BitVec 80
  validM : Bool

/-- `validR` holds `valid_r[1]` and `valid_r[0]`. -/
structure State where
  validInt : Bool
  validR : Bool × Bool
  multDelay : BitVec 8
  multPluseM : BitVec 40
  multDistanceM : BitVec 80
  pluse : BitVec 8
  distanceReg : BitVec 16
  timePluse : BitVec 12
  distance : BitVec 18
  valid1 : Bool
  valid : Bool

/-- `rst` is low. -/
def State.reset : State where
  validInt := false
  validR := (false, false)
  multDelay := 0
  multPluseM := 0
  multDistanceM := 0
  pluse := 0
  distanceReg := 0
  timePluse := 0
  distance := 0
  valid1 := false
  valid := false

def State.validRise (s : State) : Bool := s.validR == (false, true)

def State.validFall (s : State) : Bool := s.validR == (true, false)

/-- The next echo moves to the highest slot. -/
def State.shifts (s : State) : Bool :=
  s.multDelay == 18 || s.multDelay == 38 || s.multDelay == 58 || s.multDelay == 78

/-- The distance and the width that go to the output with the next edge, if any do. -/
def State.emits (s : State) : Option (BitVec 18 × BitVec 12) :=
  if s.multDelay = 80 ∧ s.distanceReg = 0 then some (0xffff, 0)
  else if 0 < s.distanceReg.toNat then
    if s.validFall || s.multDelay == 20 || s.multDelay == 40 || s.multDelay == 60 ||
        s.multDelay == 80 then
      some (s.distanceReg.setWidth 18, s.pluse.setWidth 12)
    else none
  else none

/-- One edge of `clk`. -/
def step (s : State) (i : Input) : State where
  validInt := i.validM
  validR := (s.validR.2, s.validInt)
  multDelay := if s.validRise then 0 else s.multDelay + 1
  multPluseM :=
    if s.validInt then i.multPluse
    else if s.shifts then s.multPluseM <<< 8
    else s.multPluseM
  multDistanceM :=
    if s.validInt then i.multDistance
    else if s.shifts then s.multDistanceM <<< 16
    else s.multDistanceM
  pluse := s.multPluseM.extractLsb' 32 8
  distanceReg := s.multDistanceM.extractLsb' 64 16
  timePluse := (s.emits.map Prod.snd).getD s.timePluse
  distance := (s.emits.map Prod.fst).getD s.distance
  valid1 := s.emits.isSome
  valid := s.valid1

/-- What the output hands over in a clock. -/
def State.out (s : State) : Option (BitVec 18 × BitVec 12) :=
  if s.valid then some (s.distance, s.timePluse) else none

/-- The distances of a list, packed. -/
def packDistance (echoes : List (BitVec 16 × BitVec 8)) : BitVec 80 :=
  echoes.foldl (fun packed echo => packed.setWidth 64 ++ echo.1) 0

/-- The widths of a list, packed. -/
def packPluse (echoes : List (BitVec 16 × BitVec 8)) : BitVec 40 :=
  echoes.foldl (fun packed echo => packed.setWidth 32 ++ echo.2) 0

end SingleScan.MultDiv
