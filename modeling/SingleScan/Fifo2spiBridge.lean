import SingleScan.Basic

/-!
# The bridge to the W5500

`fifo2spi_bridge_top.v`: the Nios core writes the words of a transaction to a FIFO, and the bridge hands
their bytes to `spi_master_core`, which is not modelled; its answers are inputs.
-/

namespace SingleScan.Fifo2spiBridge

/-- The states of the one-hot register `cs`. -/
inductive Phase
  | idle | start | addrH | addrL | control | write | readLen | readByte | readCnt | readJudge | over
deriving DecidableEq, Repr

structure Input where
  niosCs : Bool
  spiwrFifoOutValid : Bool
  spiwrFifoOutData : Word
  spirdFifoInReady : Bool
  mAxiTvalid : Bool
  mAxiTdata : BitVec 8

structure State where
  cs : Phase
  stateCnt : BitVec 16
  lenCnt : BitVec 12
  readLen : BitVec 12
  sAxiTvalid : Bool
  sAxiTdata : BitVec 8
  spirdFifoInValid : Bool
  spirdFifoInData : BitVec 8

/-- `rst` is low. `spird_fifo_in_data` has no reset. -/
def State.reset (s : State) : State where
  cs := .idle
  stateCnt := 0
  lenCnt := 0
  readLen := 0
  sAxiTvalid := false
  sAxiTdata := 0
  spirdFifoInValid := false
  spirdFifoInData := s.spirdFifoInData

def State.ns (s : State) (i : Input) : Phase :=
  match s.cs with
  | .idle => if i.niosCs then .idle else .start
  | .start => if i.spiwrFifoOutValid then .addrH else .start
  | .addrH => if i.spiwrFifoOutValid then .addrL else .addrH
  | .addrL => if i.spiwrFifoOutValid then .control else .addrL
  | .control => if i.spiwrFifoOutData.getLsbD 2 then .write else .readLen
  | .write => if i.niosCs then .idle else .write
  | .readLen => if i.spiwrFifoOutValid then .readByte else .readLen
  | .readByte => if s.stateCnt = 140 then .readCnt else .readByte
  | .readCnt => .readJudge
  | .readJudge =>
      if i.spirdFifoInReady then
        if s.lenCnt = s.readLen then .over else .readByte
      else .readJudge
  | .over => if i.niosCs then .idle else .over

/-- `s_axi_tvalid` and `s_axi_tdata` behind the next edge. -/
def State.sAxi (s : State) (i : Input) : Bool × BitVec 8 :=
  match s.cs with
  | .readLen => (false, 0)
  | .readByte => if s.stateCnt = 4 then (true, 0x00) else (false, s.sAxiTdata)
  | _ => (i.spiwrFifoOutValid, i.spiwrFifoOutData.setWidth 8)

def step (s : State) (i : Input) : State where
  cs := s.ns i
  stateCnt := if s.cs ≠ s.ns i then 0 else s.stateCnt + 1
  lenCnt := if s.cs = .idle then 0 else if s.cs = .readCnt then s.lenCnt + 1 else s.lenCnt
  readLen :=
    if s.cs = .idle then 0
    else if s.cs = .readLen ∧ i.spiwrFifoOutValid then i.spiwrFifoOutData.setWidth 12
    else s.readLen
  sAxiTvalid := (s.sAxi i).1
  sAxiTdata := (s.sAxi i).2
  spirdFifoInValid :=
    i.mAxiTvalid && (s.cs == .readByte || s.cs == .readCnt || s.cs == .readJudge)
  spirdFifoInData := i.mAxiTdata

/-- The byte that `spi_master_core` is handed in a clock. -/
def State.handed (s : State) : List (BitVec 8) := if s.sAxiTvalid then [s.sAxiTdata] else []

end SingleScan.Fifo2spiBridge
