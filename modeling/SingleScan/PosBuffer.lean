import SingleScan.Basic

/-!
# The buffer of the distances

`pos_buffer.v`: the distances of a rotation go into `pos_fifo`, and `update2nios` takes them out on
another clock. What the reader does between two edges of `clk` is the number of words that it removes.
-/

namespace SingleScan.PosBuffer

/-- `TIME_100MS`. -/
def time100ms : ℕ := 100 * 1000 * 100

/-- `lpm_numwords` of `pos_fifo`. -/
def fifoNumwords : ℕ := 2048

structure Input where
  updateEnable : Bool
  cycleEnable : Bool
  targetValid : Bool
  targetPos : BitVec 16
  targetGray : BitVec 16
  reads : ℕ

/-- `cycleEnableR` holds `cycle_enable_r[1]` and `cycle_enable_r[0]`. -/
structure State where
  cycleEnableR : Bool × Bool
  enableFlag : Bool
  fifoUsedwR0 : BitVec 11
  fifoUsedwR1 : BitVec 11
  timeOutCnt : BitVec 32
  fifo : List Word

def State.reset : State where
  cycleEnableR := (false, false)
  enableFlag := false
  fifoUsedwR0 := 0
  fifoUsedwR1 := 0
  timeOutCnt := 0
  fifo := []

def State.cycleEnableRise (s : State) : Bool := s.cycleEnableR == (false, true)

/-- `wrusedw`, and `fifo_usedw` on the other side. -/
def State.usedw (s : State) : BitVec 11 := BitVec.ofNat 11 s.fifo.length

def State.aclr (s : State) : Bool := s.timeOutCnt.toNat == time100ms

/-- The word that the FIFO takes in: `wrreq` with `overflow_checking`. -/
def written (s : State) (i : Input) : Option Word :=
  if s.enableFlag && i.targetValid && decide (s.fifo.length < fifoNumwords) then
    some (i.targetGray ++ i.targetPos)
  else none

def step (s : State) (i : Input) : State where
  cycleEnableR := (s.cycleEnableR.2, i.cycleEnable)
  enableFlag :=
    if i.updateEnable then
      if s.cycleEnableRise then s.usedw == 0 || s.usedw == 811 else s.enableFlag
    else if i.cycleEnable then s.enableFlag
    else false
  fifoUsedwR0 := s.usedw
  fifoUsedwR1 := s.fifoUsedwR0
  timeOutCnt :=
    if i.updateEnable then
      if s.timeOutCnt.toNat = time100ms then 0
      else if s.fifoUsedwR0 ≠ s.fifoUsedwR1 then 0
      else s.timeOutCnt + 1
    else s.timeOutCnt
  fifo := if s.aclr then [] else s.fifo.drop i.reads ++ (written s i).toList

end SingleScan.PosBuffer
