import SingleScan.SickProtocol

/-!
# The packets of the PC

`pc2dev.c`: the loop of `pc2dev_parse` over the packets in a buffer, the commands, and the replies
that `pc2dev_packet` builds.

Nearly all commands have the same shape: if the value is in range, `SysPara.member = para` and
`set_laser_paramter(command, para)`. They are one table here: `Setting` names them, and `command`,
`accepts` and `member` give the source's own values for each.
-/

namespace SingleScan

/-- The parameters that the PC sets on both sides. -/
inductive Setting
  | hwType | laserEnable | laserFreq | laserPulseWidth | laserRecvDelay | motorEnable | motorSpeed
  | zeroDistanceRevise | zeroAngleRevise
  | grayDistanceRevise1 | grayDistanceRevise2 | grayDistanceRevise3
  | grayDistanceRevise4 | grayDistanceRevise5
  | grayInflection1 | grayInflection2 | grayInflection3 | grayInflection4
  | noiseDiffSetting1 | noiseDiffSetting2 | signalThreshold | apdVolSetting
  | tempVolCof1 | tempVolCof2 | tempVolInflection
  | tempDistanceCof1 | tempDistanceCof2 | tempDistanceInflection
  | validNumThreshold | minDistanceValue | firstNoiseFilter | dustAlarmThreshold
  | daCyclePara1 | daCyclePara2 | daCyclePara3 | daCyclePara4 | daCyclePara5
  | daCyclePara6 | daCyclePara7 | daCyclePara8 | daCyclePara9
  | minTargetSize | alarmOutputThreshold
deriving DecidableEq, Repr

namespace Setting

def all : List Setting :=
  [hwType, laserEnable, laserFreq, laserPulseWidth, laserRecvDelay, motorEnable, motorSpeed,
    zeroDistanceRevise, zeroAngleRevise, grayDistanceRevise1, grayDistanceRevise2,
    grayDistanceRevise3, grayDistanceRevise4, grayDistanceRevise5, grayInflection1,
    grayInflection2, grayInflection3, grayInflection4, noiseDiffSetting1, noiseDiffSetting2,
    signalThreshold, apdVolSetting, tempVolCof1, tempVolCof2, tempVolInflection, tempDistanceCof1,
    tempDistanceCof2, tempDistanceInflection, validNumThreshold, minDistanceValue,
    firstNoiseFilter, dustAlarmThreshold, daCyclePara1, daCyclePara2, daCyclePara3, daCyclePara4,
    daCyclePara5, daCyclePara6, daCyclePara7, daCyclePara8, daCyclePara9, minTargetSize,
    alarmOutputThreshold]

/-- The command of the PC, which is also the one for the FPGA. -/
def command : Setting → BitVec 16
  | hwType => 0x4006
  | laserEnable => 0xa100
  | laserFreq => 0xa101
  | laserPulseWidth => 0xa102
  | laserRecvDelay => 0xa103
  | motorEnable => 0xa200
  | motorSpeed => 0xa201
  | zeroDistanceRevise => 0xa301
  | zeroAngleRevise => 0xa302
  | grayDistanceRevise1 => 0xa401
  | grayDistanceRevise2 => 0xa402
  | grayDistanceRevise3 => 0xa403
  | grayDistanceRevise4 => 0xa404
  | grayDistanceRevise5 => 0xa405
  | grayInflection1 => 0xa601
  | grayInflection2 => 0xa602
  | grayInflection3 => 0xa603
  | grayInflection4 => 0xa604
  | noiseDiffSetting1 => 0xa501
  | noiseDiffSetting2 => 0xa502
  | signalThreshold => 0xa701
  | apdVolSetting => 0xa702
  | tempVolCof1 => 0xa703
  | tempVolCof2 => 0xa704
  | tempVolInflection => 0xa705
  | tempDistanceCof1 => 0xa706
  | tempDistanceCof2 => 0xa707
  | tempDistanceInflection => 0xa708
  | validNumThreshold => 0xa709
  | minDistanceValue => 0xaa01
  | firstNoiseFilter => 0xaa03
  | dustAlarmThreshold => 0xab00
  | daCyclePara1 => 0xac01
  | daCyclePara2 => 0xac02
  | daCyclePara3 => 0xac03
  | daCyclePara4 => 0xac04
  | daCyclePara5 => 0xac05
  | daCyclePara6 => 0xac06
  | daCyclePara7 => 0xac07
  | daCyclePara8 => 0xac08
  | daCyclePara9 => 0xac09
  | minTargetSize => 0xad00
  | alarmOutputThreshold => 0xad01

/-- The range check of the command. -/
def accepts (m : Setting) (para : Word) : Bool :=
  match m with
  | laserEnable | motorEnable => para == enable || para == disable
  | laserPulseWidth => 3 ≤ para.toNat && para.toNat ≤ 10
  | laserRecvDelay => para.toNat ≤ 16
  | motorSpeed => 8 ≤ para.toNat && para.toNat ≤ 15
  | zeroDistanceRevise => para.toNat ≤ 1024
  | zeroAngleRevise => 2 ≤ para.toNat && para.toNat ≤ 240
  | signalThreshold => para.toNat ≤ 1024
  | apdVolSetting => (para &&& 0x3f).toNat ≤ 1024
  | tempVolCof1 | tempVolCof2 => 20 ≤ para.toNat && para.toNat ≤ 45
  | tempVolInflection => para.toNat ≤ 50
  | tempDistanceCof1 | tempDistanceCof2 => para.toNat ≤ 128
  | tempDistanceInflection => para.toNat ≤ 60
  | validNumThreshold => 1 < para.toNat && para.toNat < 40
  | minDistanceValue => para.toNat ≤ 500
  | firstNoiseFilter => 2 ≤ para.toNat && para.toNat ≤ 12
  | dustAlarmThreshold => para.toNat ≤ 100
  | daCyclePara1 | daCyclePara2 | daCyclePara3 | daCyclePara4 | daCyclePara5 => para.toNat ≤ 1023
  | daCyclePara6 | daCyclePara7 | daCyclePara8 | daCyclePara9 => para.toNat ≤ 1023
  | minTargetSize => para.toNat ≤ 8000
  | alarmOutputThreshold => 1 ≤ para.toNat && para.toNat ≤ 500
  | _ => true

/-- The member of `SysPara`. Bit 15 of an APD setting tells the two thresholds apart. -/
def member (m : Setting) (para : Word) : SysWord :=
  match m with
  | hwType => .boardType
  | laserEnable => .laserEnable
  | laserFreq => .laserFreq
  | laserPulseWidth => .laserPulseWidth
  | laserRecvDelay => .laserRecvDelay
  | motorEnable => .motorEnable
  | motorSpeed => .motorExpectSpeed
  | zeroDistanceRevise => .zeroDistanceRevise
  | zeroAngleRevise => .zeroAngleRevise
  | grayDistanceRevise1 => .grayDistanceRevise1
  | grayDistanceRevise2 => .grayDistanceRevise2
  | grayDistanceRevise3 => .grayDistanceRevise3
  | grayDistanceRevise4 => .grayDistanceRevise4
  | grayDistanceRevise5 => .grayDistanceRevise5
  | grayInflection1 => .grayInflection1
  | grayInflection2 => .grayInflection2
  | grayInflection3 => .grayInflection3
  | grayInflection4 => .grayInflection4
  | noiseDiffSetting1 => .noiseDiffSetting1
  | noiseDiffSetting2 => .noiseDiffSetting2
  | signalThreshold => .signalThresold
  | apdVolSetting => if (para >>> 15) &&& 0x01 = 0x01 then .signalThresold else .apdVolBase
  | tempVolCof1 => .tempVoltCof1
  | tempVolCof2 => .tempVoltCof2
  | tempVolInflection => .tempVoltInflection
  | tempDistanceCof1 => .tempDistanceCof1
  | tempDistanceCof2 => .tempDistanceCof2
  | tempDistanceInflection => .tempDistanceInflection
  | validNumThreshold => .validNumThreshold
  | minDistanceValue => .minDisplayDistance
  | firstNoiseFilter => .firstNoiseFilter
  | dustAlarmThreshold => .dustAlarmThreshold
  | daCyclePara1 => .daCyclePara1
  | daCyclePara2 => .daCyclePara2
  | daCyclePara3 => .daCyclePara3
  | daCyclePara4 => .daCyclePara4
  | daCyclePara5 => .daCyclePara5
  | daCyclePara6 => .daCyclePara6
  | daCyclePara7 => .daCyclePara7
  | daCyclePara8 => .daCyclePara8
  | daCyclePara9 => .daCyclePara9
  | minTargetSize => .minTargetSize
  | alarmOutputThreshold => .alarmOutputThreshold

end Setting

namespace Pc2Dev

/-- `PC_SET_ALARM_REGION`. -/
def pcSetAlarmRegion : Word := 0x4001

/-- `PC_READ_ALARM_REGION`. -/
def pcReadAlarmRegion : Word := 0x4002

/-- `PC_LOAD_REGION_DATA`. -/
def pcLoadRegionData : Word := 0x4003

/-- `PC_REQ_REGION_DATA`. -/
def pcReqRegionData : Word := 0x4004

/-- `PC_REQ_RADAR_PARA`. -/
def pcReqRadarPara : Word := 0x4005

/-- `PC_SAVA_SYS_PARA`. -/
def pcSavaSysPara : Word := 0x4007

/-- `PC_RESET_NIOS`. -/
def pcResetNios : Word := 0x4008

/-- `PC_SET_SN`. -/
def pcSetSn : Word := 0x4009

/-- `PC_SET_DEV_TYPE`. -/
def pcSetDevType : Word := 0x4010

/-- `PC_SET_DUST_THRESHOLD`. -/
def pcSetDustThreshold : Word := 0x4011

/-- `LASER_PRESDO`. -/
def laserPresdo : Word := 0xa104

/-- `PC_REMOTE_UPDATE_WRITE`. -/
def pcRemoteUpdateWrite : Word := 0x4100

/-- `PC_REMOTE_UPDATE_READ`. -/
def pcRemoteUpdateRead : Word := 0x4101

/-- `PC_REMOTE_UPDATE_ERASE`. -/
def pcRemoteUpdateErase : Word := 0x4102

/-- `NIOS_UP_RESPONSE_PC`. -/
def niosUpResponsePc : Word := 0x5000

/-- `NIOS_UP_ALARM_REGION`. -/
def niosUpAlarmRegion : Word := 0x5001

/-- `NIOS_UP_REGION_DATA`. -/
def niosUpRegionData : Word := 0x5002

/-- `NIOS_UP_RADAR_PARA`. -/
def niosUpRadarPara : Word := 0x5005

/-- `NIOS_REMOTE_WRITE_REPONSE`. -/
def niosRemoteWriteReponse : Word := 0x5100

/-- `NIOS_UP_REMOTE_UPDATE_IMAGE`. -/
def niosUpRemoteUpdateImage : Word := 0x5101

/-- `(buf[i] << 24) + (buf[i + 1] << 16) + (buf[i + 2] << 8) + buf[i + 3]`. -/
def bigEndian (buf : Bytes) (i : ℕ) : Word :=
  ((buf i).setWidth 32 <<< 24) + ((buf (i + 1)).setWidth 32 <<< 16) +
    ((buf (i + 2)).setWidth 32 <<< 8) + (buf (i + 3)).setWidth 32

/-- The bytes of a word, the highest one first. -/
def bytesOf (w : Word) : List Byte :=
  [(w >>> 24).setWidth 8, (w >>> 16).setWidth 8, (w >>> 8).setWidth 8, (w >>> 0).setWidth 8]

/-- `for(i = 0; i < n; i++) checksum ^= buf[i]`. -/
def xorBytes (buf : Bytes) (n : ℕ) (checksum : Byte) : Byte :=
  (List.range n).foldl (fun c i => c ^^^ buf i) checksum

/-- The swap of the two bytes of each boundary in a reply. -/
def swapBytes (buf : Bytes) : Bytes := fun k =>
  if 9 ≤ k ∧ k < 9 + targetNumber * 2 then
    if (k - 9) % 2 = 0 then buf (k + 1) else buf (k - 1)
  else buf k

end Pc2Dev

open Pc2Dev

namespace Device

variable {φ : Type}

/-- The checksum of the reply in `send_buffer`, begun with what the stack holds or with 0. -/
def checksum (d : Device φ) (n : ℕ) (start : Byte) : Byte := xorBytes d.nios.sendBuffer n start

/-- `pc2dev_packet(&nios2pc, send_buffer)`, with the length it returns. -/
def pc2devPacket (d : Device φ) : Device φ × ℕ :=
  let garbage := d.stack 0
  let dataLen := d.nios2pc.dataLen.toNat
  let d := { d with stack := fun n => d.stack (n + 1) }
  let d := d.fill 0
    [(d.nios2pc.head >>> 8).setWidth 8, d.nios2pc.head.setWidth 8,
      (d.nios2pc.command >>> 8).setWidth 8, d.nios2pc.command.setWidth 8]
  let d := d.fill 4 (bytesOf d.nios2pc.dataLen)
  let command := d.nios2pc.command
  if command = niosUpAlarmRegion then
    let d := d.fill 8 ((List.range dataLen).map fun i =>
      eepromReadByte d.eeprom (curAlarmGroup + BitVec.ofNat 32 i))
    let d := d.fill 8 [0x00, 0x00, 0x00, d.alarmRegion.changeRegionValue]
    let checksum := d.checksum (8 + dataLen) 0
    (d.fill (8 + dataLen) [0x00, 0x00, 0x00, checksum], 8 + dataLen + 4)
  else if command = niosUpRegionData then
    let offsetAddr := groupOffsetAddr + d.alarmRegion.rdWhich.setWidth 32 * regionSpaceSize
    let d := d.fill 8 [d.alarmRegion.rdWhich]
    let d := d.fill 9 ((eepromSequentialRead d.eeprom offsetAddr (targetNumber * 2 + 1 + 102)).getD [])
    let d := { d with nios := { d.nios with sendBuffer := swapBytes d.nios.sendBuffer } }
    let bufLen := 9 + (targetNumber * 2 + 1 + 102)
    let checksum := d.checksum bufLen 0
    -- the checksum starts one byte late, so the reply ends before it
    (d.fill (bufLen + 1) [0x00, 0x00, 0x00, checksum], bufLen + 4)
  else if command = niosUpResponsePc then
    let d := d.fill 8 (bytesOf (d.nios.sysPara.word .pcCommandValue))
    let checksum := d.checksum 12 garbage
    (d.fill 12 [0, 0, 0, checksum], 16)
  else if command = niosUpRadarPara then
    let d := d.fill 8 (d.nios.sysPara.bytes d.padding)
    let checksum := d.checksum (8 + sizeofSysPara) garbage
    (d.fill (8 + sizeofSysPara) [0xaa, 0xbb, 0xcc, checksum], 8 + sizeofSysPara + 4)
  else if command = niosRemoteWriteReponse ∨ command = niosUpRemoteUpdateImage then
    let d := d.fill 8 (bytesOf d.image.addr)
    let d := d.fill 12 (List.ofFn d.image.data)
    let checksum := d.checksum (8 + 4 + 256) garbage
    (d.fill 272 [0, 0, 0, checksum], 8 + 4 + 256 + 4)
  else
    let d := d.fill 8 (bytesOf d.nios2pc.value)
    let checksum := d.checksum 12 garbage
    (d.fill 12 [0, 0, 0, checksum], 16)

/-- A reply: its command and length, `pc2dev_packet` and `send`. -/
def reply (d : Device φ) (socket : ℕ) (command dataLen : Word) : Device φ :=
  let (d, sendLen) :=
    { d with nios2pc := { d.nios2pc with command := command, dataLen := dataLen } }.pc2devPacket
  d.send socket sendLen

/-- `PC_SET_ALARM_REGION`, for a `select` in range. -/
def setAlarmRegion (d : Device φ) (buf : Bytes) : Device φ :=
  let rom := eepromWriteByte d.eeprom (curAlarmGroup + 2) (buf 10)
  let d := { d with eeprom := eepromWriteByte rom (curAlarmGroup + 3) (buf 11) }
  let num := d.alarmRegion.select * 3
  ((d.regionReadFromRom (num + 0)).regionReadFromRom (num + 1)).regionReadFromRom (num + 2)

/-- `PC_READ_ALARM_REGION`. -/
def readAlarmRegion (d : Device φ) (socket : ℕ) (para : Word) : Device φ :=
  if para.toNat ≤ 15 then d.reply socket niosUpAlarmRegion 4 else d

/-- `PC_LOAD_REGION_DATA`. -/
def loadRegionData (d : Device φ) (buf : Bytes) : Device φ :=
  let region := { d.alarmRegion with
    wrWhich := buf 8
    buffer := fun i => buf (2 * i + 9) ++ buf (2 * i + 1 + 9)
    zenithSave := fun i =>
      if i.val < zenithNumber then buf (1631 + i) else d.alarmRegion.zenithSave i }
  let d := { d with alarmRegion := region }
  let d :=
    if d.nios.sysPara.updatePosFlag then
      let d := d.setLaserParamter uploadEn disable
      let d := { d with eeprom := regionSave2eeprom d.eeprom d.alarmRegion }
      d.setLaserParamter uploadEn enable
    else { d with eeprom := regionSave2eeprom d.eeprom d.alarmRegion }
  if d.alarmRegion.changeRegionValue = d.alarmRegion.wrWhich / 3 then
    { d with alarmRegion := { d.alarmRegion with changeRegionFlag := 0x01 } }
  else d

/-- `PC_REQ_REGION_DATA`. -/
def reqRegionData (d : Device φ) (socket : ℕ) (para : Word) : Device φ :=
  { d with alarmRegion := { d.alarmRegion with rdWhich := para.setWidth 8 } }.reply socket
    niosUpRegionData (BitVec.ofNat 32 (1 + targetNumber * 2 + zenithNumber))

/-- `PC_REQ_RADAR_PARA`. -/
def reqRadarPara (d : Device φ) (socket : ℕ) : Device φ :=
  (d.reply socket niosUpRadarPara (BitVec.ofNat 32 sizeofSysPara)).setLaserParamter 0xc000 0xaaaa

/-- `PC_REMOTE_UPDATE_WRITE`. -/
def remoteUpdateWrite (d : Device φ) (driver : FlashDriver φ) (socket : ℕ) (buf : Bytes) :
    Device φ :=
  let image : Update := { addr := bigEndian buf 8, data := fun i => buf (12 + i) }
  let flash := imageWrite driver d.flash image.addr image.data
  let image := { image with data := imageRead driver flash image.addr image.data }
  { d with flash := flash, image := image }.reply socket niosRemoteWriteReponse (4 + 256)

/-- `PC_REMOTE_UPDATE_READ`. -/
def remoteUpdateRead (d : Device φ) (driver : FlashDriver φ) (socket : ℕ) (buf : Bytes) :
    Device φ :=
  let addr := bigEndian buf 8
  { d with image := { addr := addr, data := imageRead driver d.flash addr d.image.data } }.reply
    socket niosUpRemoteUpdateImage (4 + 256)

/-- `PC_REMOTE_UPDATE_ERASE`. -/
def remoteUpdateErase (d : Device φ) (driver : FlashDriver φ) (para : Word) : Device φ :=
  { d with
    flash := (List.range para.toNat).foldl
      (fun flash i => imageErase driver flash (BitVec.ofNat 32 i)) d.flash }

/-- A command of the table. -/
def change (d : Device φ) (m : Setting) (para : Word) : Device φ :=
  if m.accepts para then
    (d.setPara fun p => p.set (m.member para) para).setLaserParamter m.command para
  else d

/-- The `switch` of `pc2dev_parse`, without the way out of `PC_SET_ALARM_REGION`. -/
def execute (d : Device φ) (driver : FlashDriver φ) (socket : ℕ) (buf : Bytes) (para : Word) :
    Device φ :=
  let command := d.pc2nios.command
  if command = pcSetAlarmRegion then d.setAlarmRegion buf
  else if command = pcReadAlarmRegion then d.readAlarmRegion socket para
  else if command = pcLoadRegionData then d.loadRegionData buf
  else if command = pcReqRegionData then d.reqRegionData socket para
  else if command = pcReqRadarPara then d.reqRadarPara socket
  else if command = pcSavaSysPara then
    { d with eeprom := saveSysPara d.eeprom d.padding d.nios.sysPara }
  else if command = pcResetNios then { d with resetNios := para }
  else if command = pcSetSn then d.setPara fun p => { p with devSn := fun i => buf (8 + i) }
  else if command = pcSetDevType then d.setPara fun p => { p with devType := fun i => buf (8 + i) }
  else if command = pcSetDustThreshold then d.setPara fun p => p.set .dustThreshold para
  else if command = laserPresdo then
    d.setPara fun p => { p with laserPresdo := fun i => buf (8 + i) }
  else if command = pcRemoteUpdateWrite then d.remoteUpdateWrite driver socket buf
  else if command = pcRemoteUpdateRead then d.remoteUpdateRead driver socket buf
  else if command = pcRemoteUpdateErase then d.remoteUpdateErase driver para
  else
    match Setting.all.find? fun m => m.command.setWidth 32 = command with
    | some m => d.change m para
    | none => d

/-- The header of a packet goes to `pc2nios`, and the packet counts. -/
def readHeader (d : Device φ) (buf : Bytes) : Device φ :=
  { d with
    pc2nios := {
      head := ((buf 0).setWidth 32 <<< 8) + (buf 1).setWidth 32
      command := ((buf 2).setWidth 32 <<< 8) + (buf 3).setWidth 32
      dataLen := bigEndian buf 4 } }.setPara fun p =>
        p.set .pcCommandValue (p.word .pcCommandValue + 1)

end Device

/-! ### The loop -/

/-- The memory a pointer reaches, seen from the address that `pc2dev_parse` is called with. -/
abbrev Memory := Word → Byte

/-- The bytes behind a pointer. -/
def Memory.at (mem : Memory) (buf : Word) : Bytes := fun i => mem (buf + BitVec.ofNat 32 i)

/-- The variables of `pc2dev_parse`; `returned` is set by the `return` in the middle of the loop. -/
structure Call (φ : Type) where
  dev : Device φ
  buf : Word
  len : Word
  returned : Bool

variable {φ : Type}

/-- Another turn of the loop follows. -/
def Call.running (c : Call φ) : Bool := !c.returned && c.len != 0

/-- The peripherals and the texts behind `pc2dev_parse`. -/
structure Board (φ : Type) where
  driver : FlashDriver φ
  tim561 : Tim561

/-- One turn of `while(len != 0)`. -/
def Call.turn (board : Board φ) (socket : ℕ) (mem : Memory) (c : Call φ) : Call φ :=
  if c.running then
    let buf := mem.at c.buf
    if buf 0 = 0x02 then
      { c with dev := c.dev.sickProtocolProcess board.tim561 socket buf c.len, len := 0 }
    else
      let para := bigEndian buf 8
      let d := c.dev.readHeader buf
      if d.pc2nios.command = pcSetAlarmRegion then
        let d := { d with alarmRegion := { d.alarmRegion with select := para } }
        if d.alarmRegion.select.toNat ≤ 15 then
          let d := d.execute board.driver socket buf para
          let packetLen := d.pc2nios.dataLen + 12
          { c with dev := d, len := c.len - packetLen, buf := c.buf + packetLen }
        else { c with dev := d, returned := true }
      else
        let d := d.execute board.driver socket buf para
        let packetLen := d.pc2nios.dataLen + 12
        { c with dev := d, len := c.len - packetLen, buf := c.buf + packetLen }
  else c

/-- The call after some turns of its loop. -/
def Call.after (board : Board φ) (socket : ℕ) (mem : Memory) (c : Call φ) (n : ℕ) : Call φ :=
  (Call.turn board socket mem)^[n] c

/-- `pc2dev_parse` is entered. -/
def Call.enter (d : Device φ) (len : Word) : Call φ where
  dev := d
  buf := 0
  len := len
  returned := false

/-- `pc2dev_parse`, unless it takes more turns than the fuel. -/
def pc2devParse (board : Board φ) (socket : ℕ) (mem : Memory) (len : Word) (fuel : ℕ)
    (d : Device φ) : Option (Device φ) :=
  let c := (Call.enter d len).after board socket mem fuel
  if c.running then none else some c.dev

end SingleScan
