import SingleScan.Lib.Trace
import SingleScan.Basic

/-!
# The frame sender of the FPGA

`update2nios.v`: the sender of the frames that go up to the Nios core over the laser FIFO. A distance
frame empties one rotation of 811 words from `pos_fifo`; a status frame carries five slices of
`fpga_status`. The kind of the frame is the pair `tx_command`, `tx_data_len`, which two conditions
outside the state machine rewrite.
-/

namespace SingleScan.Update2Nios

open Clocked

/-- `CYCLE_CNT`. -/
def cycleCnt : Nat := 900000000 / 8

/-- `TX_HEAD`. -/
def txHead : BitVec 16 := 0x1234

/-- `UP_DISTANCE_DATA`. -/
def upDistanceData : BitVec 16 := 0xa003

/-- `UP_FPGA_STATUS`. -/
def upFpgaStatus : BitVec 16 := 0xc100

/-- `CYCLE_DATA_LEN`. -/
def cycleDataLen : Nat := 811

/-- `STATUS_DATA_LEN`. -/
def statusDataLen : Nat := 5

/-- The states of the one-hot register `cs`. -/
inductive Phase
  | idle | head | dataLen | data | dly | checksum | over
deriving DecidableEq, Repr

structure Input where
  fifoRddata : Word
  fifoUsedw : BitVec 11
  fpgaStatus : BitVec 256
  laserFifoInReady : Bool

/-- `heldData` is what the latch behind `laser_fifo_in_data` holds where no branch assigns it. -/
structure State where
  cs : Phase
  stateCnt : BitVec 32
  timerCnt : BitVec 32
  txCommand : BitVec 32
  txDataLen : BitVec 16
  txDataCnt : BitVec 16
  heldData : Word

def State.reset : State where
  cs := .idle
  stateCnt := 0
  timerCnt := 0
  txCommand := 0
  txDataLen := 0
  txDataCnt := 0
  heldData := 0

/-- `timer_flag`. -/
def State.timerFlag (s : State) : Bool := s.timerCnt == 100

/-- `tx_command` and `tx_data_len`, the kind of the frame. -/
def State.tx (s : State) : BitVec 32 × BitVec 16 := (s.txCommand, s.txDataLen)

/-- The next state `ns`. -/
def State.ns (s : State) (i : Input) : Phase :=
  match s.cs with
  | .idle =>
      if ((i.fifoUsedw.toNat = cycleDataLen ∨ i.fifoUsedw.toNat = cycleDataLen * 2) ∧
          i.laserFifoInReady) ∨ s.timerFlag then .head
      else .idle
  | .head => .dataLen
  | .dataLen => .data
  | .data => if s.txDataCnt.toNat + 1 = s.txDataLen.toNat then .dly else .data
  | .dly => if i.laserFifoInReady then .checksum else .dly
  | .checksum => if i.laserFifoInReady then .idle else .over
  | .over => if s.stateCnt.toNat = 10000 * 800 then .idle else .over

/-- `fifo_rdreq`. -/
def State.fifoRdreq (s : State) : Bool :=
  s.txCommand == upDistanceData.setWidth 32 && s.cs == .data

/-- `laser_fifo_in_valid`. -/
def State.laserFifoInValid (s : State) : Bool :=
  s.cs == .head || s.cs == .dataLen || s.cs == .data || s.cs == .checksum

/-- The payload words of a status frame. -/
def statusWord (fpgaStatus : BitVec 256) (txDataCnt : Nat) : Option Word :=
  match txDataCnt with
  | 0 => some (fpgaStatus.extractLsb' 0 32)
  | 1 => some (fpgaStatus.extractLsb' 32 32)
  | 2 => some (fpgaStatus.extractLsb' 64 32)
  | 3 => some (fpgaStatus.extractLsb' 96 32)
  | 4 => some ((fpgaStatus.extractLsb' 131 12).setWidth 32)
  | _ => none

/-- `laser_fifo_in_data`, a latch. -/
def State.laserFifoInData (s : State) (i : Input) : Word :=
  if s.txCommand = upDistanceData.setWidth 32 then
    match s.cs with
    | .head => txHead ++ upDistanceData
    | .dataLen => BitVec.ofNat 32 cycleDataLen
    | .data => i.fifoRddata
    | .checksum => (0 : BitVec 1) ++ i.fpgaStatus.extractLsb' 128 3 ++ (0xeeeeeee : BitVec 28)
    | _ => 0
  else if s.txCommand = upFpgaStatus.setWidth 32 then
    match s.cs with
    | .head => txHead ++ upFpgaStatus
    | .dataLen => BitVec.ofNat 32 statusDataLen
    | .data => (statusWord i.fpgaStatus s.txDataCnt.toNat).getD s.heldData
    | .checksum => 0xeeeeeeee
    | _ => 0
  else s.heldData

/-- `tx_command` and `tx_data_len` behind the next clock edge. -/
def State.nextTx (s : State) (i : Input) : BitVec 32 × BitVec 16 :=
  if cycleDataLen ≤ i.fifoUsedw.toNat then
    (upDistanceData.setWidth 32, BitVec.ofNat 16 cycleDataLen)
  else if s.timerFlag then (upFpgaStatus.setWidth 32, BitVec.ofNat 16 statusDataLen)
  else if s.cs = .checksum then (upFpgaStatus.setWidth 32, 2)
  else s.tx

/-- One edge of `clk`. -/
def step (s : State) (i : Input) : State where
  cs := s.ns i
  stateCnt := if s.cs ≠ s.ns i then 0 else s.stateCnt + 1
  timerCnt :=
    if s.cs = .idle then
      if s.timerCnt.toNat ≤ cycleCnt then s.timerCnt + 1 else 0
    else s.timerCnt
  txCommand := (s.nextTx i).1
  txDataLen := (s.nextTx i).2
  txDataCnt :=
    if s.cs = .idle then 0
    else if s.laserFifoInValid && i.laserFifoInReady && s.cs == .data then s.txDataCnt + 1
    else s.txDataCnt
  heldData := s.laserFifoInData i

/-- The state before clock `t` of a run from reset. -/
def run (input : ℕ → Input) (t : ℕ) : State := trace step State.reset input t

/-- The word the laser FIFO accepts in a clock. -/
def accepted (s : State) (i : Input) : Option Word :=
  if s.laserFifoInValid && i.laserFifoInReady then some (s.laserFifoInData i) else none

/-- The word `fifo_rdreq` takes out of `pos_fifo` in a clock. -/
def popped (s : State) (i : Input) : Option Word :=
  if s.fifoRdreq then some i.fifoRddata else none

end SingleScan.Update2Nios
