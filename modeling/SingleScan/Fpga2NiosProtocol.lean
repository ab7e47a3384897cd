import SingleScan.Nios

/-!
# The parser of the frames from the FPGA

`fpga2nios_protocol.c`. The functions change the memory of the Nios core, which they take and return.
Every word comes out of `LaserDataQueue` by `queue_pop`, whether the queue holds one or not.
-/

namespace SingleScan

namespace Fpga2Nios

/-- `FRAME_HEAD`. -/
def frameHead : BitVec 16 := 0x1234

/-- `DISTANCE_DATA`. -/
def distanceData : BitVec 16 := 0xa003

/-- `UP_FPGA_STATUS`. -/
def upFpgaStatus : BitVec 16 := 0xc100

/-- `MOTOR_LOW_SPEED_VALUE`. -/
def motorLowSpeedValue : Word := 100000000

/-- `LD_NO_WORK_VALUE`. -/
def ldNoWorkValue : Word := 7

/-- `TEMP_OUT_VALUE`. -/
def tempOutValue : Word := 76

/-- `NPN`. -/
def npn : Word := 1

/-- The conditional expression that `hex2ascii` applies to each digit. -/
def hexDigit (tmp : Word) : Word :=
  if tmp.toNat ≤ 9 then tmp + 0x30 else tmp + 0x37

/-- `hex2ascii`: the low half of a word as four hexadecimal digits. -/
def hex2ascii (data : Word) : Word :=
  let tmp31_24 := hexDigit ((data >>> 12) &&& 0x0f)
  let tmp23_16 := hexDigit ((data >>> 8) &&& 0x0f)
  let tmp15_08 := hexDigit ((data >>> 4) &&& 0x0f)
  let tmp07_00 := hexDigit ((data >>> 0) &&& 0x0f)
  (tmp31_24 <<< 24) + (tmp23_16 <<< 16) + (tmp15_08 <<< 8) + (tmp07_00 <<< 0)

/-- The five characters that go to `distance_data` for a payload word. -/
def distanceText (recvData : Word) : List Byte :=
  let distance := hex2ascii recvData
  [0x20, (distance >>> 24).setWidth 8, (distance >>> 16).setWidth 8, (distance >>> 8).setWidth 8,
    (distance >>> 0).setWidth 8]

/-- The three characters that go to `gray_data`. -/
def grayText (recvData : Word) : List Byte :=
  let gray := hex2ascii ((recvData >>> 16) &&& 0xffff)
  [0x20, (gray >>> 8).setWidth 8, (gray >>> 0).setWidth 8]

/-- `process_motor_waring`. -/
def processMotorWaring (para : SysPara) (data : SysWarn) : SysWarn :=
  { data with
    motorLowSpeedAlarm :=
      if para.word .motorEnable = enable then
        if ∀ i, motorLowSpeedValue.toNat ≤ (data.motorCycleCnt i).toNat then 0x01 else 0x00
      else 0x00 }

/-- `process_ld_waring`. -/
def processLdWaring (data : SysWarn) : SysWarn :=
  { data with
    ldNotWorkAlarm :=
      if ∀ i, (data.zeroValue i).toNat < ldNoWorkValue.toNat then 0x01 else 0x00 }

/-- `process_window_dust_waring`. -/
def processWindowDustWaring (para : SysPara) (data : SysWarn) : SysWarn :=
  { data with
    windowDustAlarm :=
      if ∀ i, (para.word .dustThreshold).toNat < (data.dustCnt i).toNat then 0x01 else 0x00 }

/-- The body of the loop of `process_sys_temp_waring`, for one temperature. -/
def tempOut (tempValue : Word) : Word :=
  let signBit := (tempValue >>> 13) &&& 0x01
  if signBit = 0 then
    if tempOutValue.toNat < (tempValue &&& 0x00ff).toNat then 0x01 else 0x00
  else
    if 20 < (tempValue &&& 0x00ff).toNat then 0x01 else 0x00

/-- `process_sys_temp_waring`: each turn of its loop assigns the alarm. -/
def processSysTempWaring (data : SysWarn) : SysWarn :=
  { data with
    tempOutAlarm :=
      (List.finRange 5).foldl (fun _ i => tempOut (data.tempValue i)) data.tempOutAlarm }

/-- The bytes of a word in memory. -/
def littleEndian (w : Word) : List Byte :=
  [w.setWidth 8, (w >>> 8).setWidth 8, (w >>> 16).setWidth 8, (w >>> 24).setWidth 8]

end Fpga2Nios

open Fpga2Nios

namespace Nios

/-- The loop that looks for the head of a frame; `recvData` is the word popped last. The fuel is the
number of words in the queue. -/
def findHead : ℕ → Word → Nios → Word × Nios
  | 0, recvData, s => (recvData, s)
  | fuel + 1, recvData, s =>
      if queueIsEmpty s.laserDataQueue then (recvData, s)
      else
        let (recvData, s) := s.queuePop
        if recvData.high = frameHead then
          (recvData, { s with fpga2niosData := { s.fpga2niosData with frameHead := recvData.high } })
        else findHead fuel recvData s

/-- One turn of the loop over the payload of a distance frame. -/
def distanceStep (s : Nios) : Nios :=
  let (recvData, s) := s.queuePop
  let data := s.cycleData
  { s with
    cycleData := { data with
      distanceData := memcpy data.distanceData data.distanceLen.toNat (distanceText recvData)
      distanceLen := data.distanceLen + 5
      grayData := memcpy data.grayData data.grayLen.toNat (grayText recvData)
      grayLen := data.grayLen + 3 }
    overrun := s.overrun || cycleDataSize < data.distanceLen.toNat + 5
      || cycleDataSize < data.grayLen.toNat + 3 }

/-- What `fpga2nios_parse` does when the closing word of a distance frame is in `checksum`. -/
def finishDistance (s : Nios) : Nios :=
  let checksum := s.fpga2niosData.checksum
  if checksum &&& 0xfffffff = 0xeeeeeee then
    { s with
      sysWarn := { s.sysWarn with
        regionAlarm :=
          if s.sysPara.word .boardType = npn then ~~~(checksum >>> 28) &&& 0x07
          else (checksum >>> 28) &&& 0x07 }
      cycleData := { s.cycleData with posFinish := true } }
  else
    { s with
      cycleData := { s.cycleData with
        posFinish := false
        distanceData := fun k => if k < cycleDataSize then 0 else s.cycleData.distanceData k
        grayData := fun k => if k < cycleDataSize then 0 else s.cycleData.grayData k } }

/-- The branch of `fpga2nios_parse` for `DISTANCE_DATA`. -/
def parseDistance (s : Nios) : Nios :=
  let s := { s with cycleData := { s.cycleData with distanceLen := 0, grayLen := 0 } }
  let s := distanceStep^[s.fpga2niosData.dataLen.toNat] s
  let (recvData, s) := s.queuePop
  let s := { s with fpga2niosData := { s.fpga2niosData with checksum := recvData } }
  let s := s.finishDistance
  { s with laserDataQueue := queueClear s.laserDataQueue }

/-- The report that a warning is on, to both sockets. -/
def sendWarning (s : Nios) : Nios :=
  let warn := s.sysWarn
  if warn.motorLowSpeedAlarm ||| warn.ldNotWorkAlarm ||| warn.windowDustAlarm |||
      warn.tempOutAlarm ≠ 0 then
    let s := { s with
      sendBuffer := memcpy s.sendBuffer 0
        ([0x12, 0x34, 0xc1, 0x00, 0, 0, 0, 16] ++ littleEndian warn.motorLowSpeedAlarm ++
          littleEndian warn.ldNotWorkAlarm ++ littleEndian warn.windowDustAlarm ++
          littleEndian warn.tempOutAlarm ++ [0xee, 0xee, 0xee, 0xee]) }
    (s.send 0 28).send 1 28
  else s

/-- The five payload words of a status frame, into `SysPara` and into the window of `sys_warn`. -/
def takeStatus (s : Nios) : Nios :=
  let len : Fin 5 := ⟨s.sysWarn.len.toNat % 5, Nat.mod_lt _ (by decide)⟩
  let (recvData, s) := s.queuePop
  let s := { s with
    sysWarn := { s.sysWarn with
      motorCycleCnt :=
        if s.sysWarn.motorLowSpeedAlarm = 0x00 then
          Function.update s.sysWarn.motorCycleCnt len recvData
        else s.sysWarn.motorCycleCnt }
    sysPara := s.sysPara.set .motorRealSpeed recvData }
  let (recvData, s) := s.queuePop
  let s := { s with sysPara := s.sysPara.set .zeroValue (recvData &&& 0xffff) }
  let (recvData, s) := s.queuePop
  let s := { s with
    sysWarn := { s.sysWarn with
      dustCnt :=
        if s.sysWarn.windowDustAlarm = 0x00 then Function.update s.sysWarn.dustCnt len recvData
        else s.sysWarn.dustCnt }
    sysPara := s.sysPara.set .placeholer1 recvData }
  let (recvData, s) := s.queuePop
  let s := { s with
    sysWarn := { s.sysWarn with
      tempValue :=
        if s.sysWarn.tempOutAlarm = 0x00 then
          Function.update s.sysWarn.tempValue len (recvData &&& 0xffff)
        else s.sysWarn.tempValue }
    sysPara := { s.sysPara.set .sysTemp (recvData &&& 0xffff) with
      updatePosFlag := recvData.getLsbD 31 } }
  let (recvData, s) := s.queuePop
  { s with
    sysPara := s.sysPara.set .zeroPulseWidth recvData
    sysWarn := { s.sysWarn with
      zeroValue :=
        if s.sysWarn.ldNotWorkAlarm = 0x00 then Function.update s.sysWarn.zeroValue len recvData
        else s.sysWarn.zeroValue } }

/-- The four warnings, after every fifth good status frame. -/
def processWarnings (s : Nios) : Nios :=
  if s.fpga2niosData.checksum = 0xeeeeeeee ∧ s.sysWarn.len = 5 then
    { s with
      sysWarn := processSysTempWaring (processWindowDustWaring s.sysPara
        (processLdWaring (processMotorWaring s.sysPara s.sysWarn))) }
  else s

/-- The branch of `fpga2nios_parse` for `UP_FPGA_STATUS`. -/
def parseStatus (s : Nios) : Nios :=
  let s := { s with sysWarn := { s.sysWarn with len := s.sysWarn.len % 5 } }
  let s := s.takeStatus
  let s := { s with sysWarn := { s.sysWarn with len := s.sysWarn.len + 1 } }
  let (recvData, s) := s.queuePop
  let s := { s with fpga2niosData := { s.fpga2niosData with checksum := recvData } }
  let s := s.processWarnings
  let s := { s with laserDataQueue := queueClear s.laserDataQueue }
  s.sendWarning

/-- The head, the command and the length of a frame. -/
def parseHeader (s : Nios) : Nios :=
  let (recvData, s) := s.findHead (queueCount s.laserDataQueue).toNat 0
  let s := { s with fpga2niosData := { s.fpga2niosData with command := recvData.low } }
  let (recvData, s) := s.queuePop
  { s with fpga2niosData := { s.fpga2niosData with dataLen := recvData } }

/-- `fpga2nios_parse`. -/
def fpga2niosParse (s : Nios) : Nios :=
  let s := s.parseHeader
  if s.fpga2niosData.command = distanceData then s.parseDistance
  else if s.fpga2niosData.command = upFpgaStatus then s.parseStatus
  else s

end Nios

end SingleScan
