import SingleScan.Queue
import SingleScan.SysPara

/-!
# The memory of the Nios core

The global variables that the firmware modelled here reads and writes, and what leaves the core. Two
fields are no variables of the program but a record of what it does: `pops` lists the calls of
`queue_pop` with the word they returned and whether the queue was empty, and `overrun` says that a
write to `CycleData` went past the end of its array.
-/

namespace SingleScan

/-- A C array seen from its first element. -/
abbrev Bytes := ℕ → Byte

/-- `memcpy` to the address `offset` of an array. -/
def memcpy (dest : Bytes) (offset : ℕ) (src : List Byte) : Bytes := fun k =>
  if offset ≤ k then src.getD (k - offset) (dest k) else dest k

/-- `UpDataFrame`. -/
structure UpDataFrame where
  posFinish : Bool
  distanceLen : Word
  grayLen : Word
  distanceData : Bytes
  grayData : Bytes

/-- The size of `distance_data` and of `gray_data`. -/
def cycleDataSize : ℕ := 811 * 5

/-- `Fpga_data_packet`, without the array `data`, which nothing reads or writes. -/
structure FpgaDataPacket where
  frameHead : BitVec 16
  command : BitVec 16
  dataLen : Word
  checksum : Word

/-- `Sys_warn`. -/
structure SysWarn where
  motorLowSpeedAlarm : Word
  ldNotWorkAlarm : Word
  windowDustAlarm : Word
  tempOutAlarm : Word
  regionAlarm : Word
  len : Word
  motorCycleCnt : Fin 5 → Word
  zeroValue : Fin 5 → Word
  dustCnt : Fin 5 → Word
  tempValue : Fin 5 → Word

/-- What `send` hands to the network: the socket and the bytes. -/
structure Sent where
  socket : ℕ
  bytes : List Byte
deriving DecidableEq

structure Nios where
  sysPara : SysPara
  sysWarn : SysWarn
  cycleData : UpDataFrame
  fpga2niosData : FpgaDataPacket
  laserDataQueue : Queue
  sendBuffer : Bytes
  sent : List Sent
  pops : List (Word × Bool)
  overrun : Bool

/-- `send(socket, send_buffer, len)`. -/
def Nios.send (s : Nios) (socket len : ℕ) : Nios :=
  { s with sent := s.sent ++ [⟨socket, (List.range len).map s.sendBuffer⟩] }

/-- `queue_pop(&LaserDataQueue)`. -/
def Nios.queuePop (s : Nios) : Word × Nios :=
  ((SingleScan.queuePop s.laserDataQueue).1,
    { s with
      laserDataQueue := (SingleScan.queuePop s.laserDataQueue).2
      pops := s.pops ++
        [((SingleScan.queuePop s.laserDataQueue).1, queueIsEmpty s.laserDataQueue)] })

end SingleScan
