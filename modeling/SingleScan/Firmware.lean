import SingleScan.MainLoop
import SingleScan.Startup
import SingleScan.Telegram

/-!
# The firmware

`main` of `main.c` as a machine that executes one statement at a time, and `timer_isr_interrupt`,
which may come between any two statements. In `pc2dev_parse` a statement is one turn of its loop. The
LEDs and the watchdog are left out.
-/

namespace SingleScan

/-! ### The variables as the program image gives them -/

/-- The value that `bsp.c` gives the members of four bytes. -/
def SysWord.initial : SysWord → Word
  | laserEnable | motorEnable => 0x11111111
  | laserFreq => 100000000
  | laserPulseWidth => 7
  | laserRecvDelay => 2
  | motorExpectSpeed => 15
  | zeroAngleRevise => 135
  | grayDistanceRevise1 => 35
  | grayDistanceRevise2 => 140
  | grayDistanceRevise3 => 140
  | grayInflection1 => 59
  | grayInflection2 => 120
  | grayInflection3 => 200
  | noiseDiffSetting1 => 180
  | noiseDiffSetting2 => 100
  | signalThresold => 100
  | apdVolBase => 520
  | placeholer1 => 0xeeeeeeee
  | tempVoltCof1 => 35
  | tempVoltCof2 => 38
  | tempVoltInflection => 25
  | tempDistanceCof1 => 13
  | tempDistanceCof2 => 9
  | tempDistanceInflection => 16
  | minDisplayDistance => 50
  | firstNoiseFilter => 3
  | dustAlarmThreshold => 35
  | boardType => 1
  | maxPwmDuty => 10
  | dustThreshold => 400
  | daCyclePara1 => 88
  | daCyclePara2 => 112
  | daCyclePara3 => 136
  | daCyclePara4 => 160
  | daCyclePara5 => 172
  | daCyclePara6 => 148
  | daCyclePara7 => 124
  | daCyclePara8 => 100
  | daCyclePara9 => 76
  | alarmOutputThreshold => 1
  | _ => 0

/-- `SysPara` of `bsp.c`. -/
def SysPara.initial : SysPara where
  updatePosFlag := false
  word := SysWord.initial
  niosVer := fun i => (ascii "0.01").getD i 0
  fpgaVer := fun i => (ascii "0.01").getD i 0
  devType _ := 0
  devPn _ := 0
  devSn _ := 0
  laserPresdo _ := 0
  xxx1 := 0
  xxx2 := 0

/-- `alarm_region` of `region.c`. -/
def Region.initial : Region where
  lastIoValue _ := 0
  changeRegionFlag := 0
  changeRegionValue := 0
  wrWhich := 0
  rdWhich := 0
  zenithSave _ := 0
  buffer _ := 0
  select := 0x07

/-- The other variables: `sys_warn` has its initializer, the rest is zero. -/
def Nios.initial : Nios where
  sysPara := SysPara.initial
  sysWarn :=
    { motorLowSpeedAlarm := 0, ldNotWorkAlarm := 0, windowDustAlarm := 0, tempOutAlarm := 0
      regionAlarm := 0, len := 0, motorCycleCnt := fun _ => 0, zeroValue := fun _ => 0
      dustCnt := fun _ => 0, tempValue := fun _ => 0 }
  cycleData :=
    { posFinish := false, distanceLen := 0, grayLen := 0, distanceData := fun _ => 0
      grayData := fun _ => 0 }
  fpga2niosData := { frameHead := 0, command := 0, dataLen := 0, checksum := 0 }
  laserDataQueue := queueInit (fun _ => 0) 2048
  sendBuffer _ := 0
  sent := []
  pops := []
  overrun := false

variable {φ : Type}

/-- The device when the program is loaded, with what the memories that keep their content hold.
`stack` is the stack as `Device` sees it. -/
def Device.initial (eeprom : Eeprom) (flash : φ) (stack : ℕ → Byte) : Device φ where
  nios := Nios.initial
  resetNios := 0
  alarmRegion := Region.initial
  eeprom := eeprom
  fpga := []
  pc2nios := { head := 0x1234, command := 0, dataLen := 0 }
  nios2pc := { head := 0x1234, command := 0, dataLen := 0, value := 0 }
  image := { addr := 0, data := fun _ => 0 }
  flash := flash
  sMI3EFlag := 0
  padding _ := 0
  stack := stack

/-! ### The statements of `main` -/

/-- `UP_ALARM_IO_VALUE`. -/
def upAlarmIoValue : Word := 0xc102

/-- `rd_switch_io_value`, for the data register of the port. -/
def rdSwitchIoValue (data : Byte) : Byte := ~~~data &&& 0x0f

namespace Device

/-- The report of the switch position, to both sockets. -/
def reportIoValue (d : Device φ) : Device φ :=
  let value : Word := d.alarmRegion.changeRegionValue.setWidth 32
  let (d, len) := { d with
    nios2pc := { d.nios2pc with command := upAlarmIoValue, dataLen := 4, value := value } }.pc2devPacket
  (d.send 0 len).send 1 len

/-- The chain of alarms. -/
def signalAlarms (d : Device φ) : Device φ :=
  let warn := d.nios.sysWarn
  let fault :=
    warn.motorLowSpeedAlarm ||| warn.ldNotWorkAlarm ||| warn.tempOutAlarm ||| warn.windowDustAlarm
  if warn.motorLowSpeedAlarm ||| warn.ldNotWorkAlarm ≠ 0 then
    (d.setLaserParamter Setting.laserFreq.command fault).setLaserParamter
      Setting.laserEnable.command 0x00000000
  else if warn.windowDustAlarm ≠ 0 then d.setLaserParamter Setting.laserFreq.command fault
  else if warn.tempOutAlarm ≠ 0 then d.setLaserParamter Setting.laserFreq.command fault
  else d

/-- The receive loop on the words that the laser FIFO delivers, and the parser behind it. -/
def receive (d : Device φ) (fifo : List Word) : Device φ :=
  let (queue, _) := recvLoop fifo d.nios.laserDataQueue
  let nios := { d.nios with laserDataQueue := queue }
  if queue.frameOverFlag = 0x01 then
    let nios := nios.fpga2niosParse
    { d with
      nios := { nios with laserDataQueue := { nios.laserDataQueue with frameOverFlag := 0x00 } } }
  else { d with nios := nios }

/-- An assignment to members of `alarm_region`. -/
def setRegion (d : Device φ) (f : Region → Region) : Device φ :=
  { d with alarmRegion := f d.alarmRegion }

end Device

/-- The statement that `main` executes next. The first one is the top of `while(1)`; `tim561_run` looks
at the sockets 0, 1, 4, 5 and 7, and `parsing` is inside `pc2dev_parse`. -/
inductive Place
  | tim561Run (i : Fin 5)
  | parsing (i : Fin 5) (mem : Memory) (buf len : Word)
  | receive
  | publish
  | signalAlarms
  | readIo | compareIo | raiseFlag | takeValue | keepIo
  | reportPowerUp
  | testFlag | clearFlag | load (layer : Layer) | reportIo

/-- The top of `while(1)`. -/
def Place.top : Place := .tim561Run 0

/-- The firmware between two statements. -/
structure Firmware (φ : Type) where
  dev : Device φ
  place : Place
  isTcpEstablished : Bool
  isPowerUp : Bool
  cnt30ms : Byte

/-- The status of a socket, with the bytes that have arrived. -/
inductive SocketStatus
  | established (mem : Memory) (len : BitVec 16)
  | closed
  | other

/-- What a statement reads from the outside: the status of the socket, the words of the laser FIFO and
the port of the switches. -/
structure Input where
  status : SocketStatus
  fifo : List Word
  port : Byte

namespace Firmware

/-- The socket behind each step of `tim561_run`. -/
def socket : Fin 5 → ℕ := ([0, 1, 4, 5, 7] : List ℕ).get

/-- The step of `tim561_run` is done. -/
def leaveSocket (f : Firmware φ) (i : Fin 5) : Firmware φ :=
  { f with place := if h : i.val + 1 < 5 then .tim561Run ⟨i.val + 1, h⟩ else .receive }

/-- `pc2dev_parse` has returned; behind it the first socket notes the connection. -/
def leaveParser (f : Firmware φ) (i : Fin 5) : Firmware φ :=
  { f with isTcpEstablished := if i = 0 then true else f.isTcpEstablished }.leaveSocket i

/-- A step of `tim561_run`. Socket 7 is the one for UDP. -/
def lookAt (f : Firmware φ) (i : Fin 5) : SocketStatus → Firmware φ
  | .established mem len =>
    if i = 4 then
      if len = 0 then f.leaveSocket i
      else
        { f with
          dev := f.dev.setRegion fun r => { r with changeRegionFlag := 0x01 }
          isPowerUp := true }.leaveSocket i
    else if len = 0 then f.leaveParser i
    else { f with place := .parsing i mem 0 (len.setWidth 32) }
  | .closed =>
    { f with isTcpEstablished := if i = 0 ∨ i = 1 then false else f.isTcpEstablished }.leaveSocket i
  | .other => f.leaveSocket i

/-- One turn of the loop of `pc2dev_parse`. -/
def parse (board : Board φ) (f : Firmware φ) (i : Fin 5) (mem : Memory) (buf len : Word) :
    Firmware φ :=
  let call := Call.turn board (socket i) mem ⟨f.dev, buf, len, false⟩
  let f := { f with dev := call.dev }
  if call.running then { f with place := .parsing i mem call.buf call.len } else f.leaveParser i

/-- One statement of `main`. -/
def step (board : Board φ) (input : Input) (f : Firmware φ) : Firmware φ :=
  let region := f.dev.alarmRegion
  match f.place with
  | .tim561Run i => f.lookAt i input.status
  | .parsing i mem buf len => f.parse board i mem buf len
  | .receive => { f with dev := f.dev.receive input.fifo, place := .publish }
  | .publish =>
    { f with dev := { f.dev with nios := f.dev.nios.publish }, place := .signalAlarms }
  | .signalAlarms => { f with dev := f.dev.signalAlarms, place := .readIo }
  | .readIo =>
    { f with
      dev := f.dev.setRegion fun r =>
        { r with lastIoValue := Function.update r.lastIoValue 0 (rdSwitchIoValue input.port) }
      place := .compareIo }
  | .compareIo =>
    { f with
      place := if region.lastIoValue 0 ≠ region.lastIoValue 1 then .raiseFlag else .keepIo }
  | .raiseFlag =>
    { f with
      dev := f.dev.setRegion fun r => { r with changeRegionFlag := 0x01 }
      place := .takeValue }
  | .takeValue =>
    { f with
      dev := f.dev.setRegion fun r => { r with changeRegionValue := r.lastIoValue 0 }
      place := .keepIo }
  | .keepIo =>
    { f with
      dev := f.dev.setRegion fun r =>
        { r with lastIoValue := Function.update r.lastIoValue 1 (r.lastIoValue 0) }
      place := .reportPowerUp }
  | .reportPowerUp =>
    if f.isTcpEstablished && f.isPowerUp then
      { f with dev := f.dev.reportIoValue, isPowerUp := false, place := .testFlag }
    else { f with place := .testFlag }
  | .testFlag =>
    { f with place := if region.changeRegionFlag = 0x01 then .clearFlag else .top }
  | .clearFlag =>
    { f with
      dev := f.dev.setRegion fun r => { r with changeRegionFlag := 0x00 }
      place := .load 0 }
  | .load layer =>
    { f with
      dev := f.dev.regionReadFromRom
        (region.changeRegionValue.setWidth 32 * 3 + BitVec.ofNat 32 layer)
      place := if layer = 2 then .reportIo else .load (layer + 1) }
  | .reportIo => { f with dev := f.dev.reportIoValue, place := .top }

/-- `timer_isr_interrupt`, of which every fourth call reads the switches. -/
def timerIsr (port : Byte) (f : Firmware φ) : Firmware φ :=
  if f.cnt30ms = 3 then
    let value := rdSwitchIoValue port
    { f with
      dev := f.dev.setRegion fun r =>
        if value ≠ r.lastIoValue 1 then
          { r with
            lastIoValue := fun _ => value, changeRegionFlag := 0x01, changeRegionValue := value }
        else { r with lastIoValue := fun _ => value }
      cnt30ms := 0 }
  else { f with cnt30ms := f.cnt30ms + 1 }

end Firmware

/-- What happens next. -/
inductive Event
  | main (input : Input)
  | timer (port : Byte)

def Firmware.on (board : Board φ) (f : Firmware φ) : Event → Firmware φ
  | .main input => f.step board input
  | .timer port => f.timerIsr port

/-- The firmware after some events. -/
def Firmware.run (board : Board φ) (f : Firmware φ) (events : List Event) : Firmware φ :=
  events.foldl (Firmware.on board) f

/-- The firmware at the top of the loop for the first time. `buf` is the stack under `read_sys_para`. -/
def Firmware.boot (eeprom : Eeprom) (flash : φ) (stack : ℕ → Byte) (buf devPnNum : Bytes)
    (port : Byte) : Firmware φ where
  dev := (Device.initial eeprom flash stack).powerUp buf devPnNum (rdSwitchIoValue port)
  place := .top
  isTcpEstablished := false
  isPowerUp := true
  cnt30ms := 0

/-- The firmware at any moment behind some power up. -/
def Firmware.Reached (board : Board φ) (f : Firmware φ) : Prop :=
  ∃ eeprom flash stack buf devPnNum port events,
    f = (Firmware.boot eeprom flash stack buf devPnNum port).run board events

end SingleScan
