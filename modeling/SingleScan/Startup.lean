import SingleScan.Packets

/-!
# Power up

What `main` does before its loop: the active regions go to the FPGA, `read_sys_para` takes the saved
parameters from the EEPROM, and `init_fpga_sys` sends them to the FPGA.
-/

namespace SingleScan

/-- Where a member of `Sys_Para` lies in memory. -/
def SysWord.offset : SysWord → ℕ
  | laserEnable => 4
  | laserFreq => 8
  | laserRecvDelay => 12
  | motorEnable => 16
  | motorExpectSpeed => 20
  | zeroDistanceRevise => 24
  | zeroAngleRevise => 28
  | grayDistanceRevise1 => 32
  | grayDistanceRevise2 => 36
  | grayDistanceRevise3 => 40
  | laserPulseWidth => 44
  | signalThresold => 48
  | noiseDiffSetting1 => 52
  | noiseDiffSetting2 => 56
  | apdVolBase => 60
  | grayInflection1 => 64
  | grayInflection2 => 68
  | minDisplayDistance => 72
  | placeholer1 => 76
  | firstNoiseFilter => 80
  | tempVoltCof1 => 92
  | tempVoltCof2 => 96
  | tempVoltInflection => 100
  | tempDistanceCof1 => 104
  | tempDistanceCof2 => 108
  | tempDistanceInflection => 112
  | zeroValue => 116
  | sysTemp => 120
  | maxPwmDuty => 124
  | minPwmDuty => 128
  | motorRealSpeed => 132
  | dustAlarmThreshold => 136
  | daCyclePara1 => 140
  | daCyclePara2 => 144
  | daCyclePara3 => 148
  | daCyclePara4 => 152
  | daCyclePara5 => 156
  | daCyclePara6 => 160
  | daCyclePara7 => 164
  | daCyclePara8 => 168
  | daCyclePara9 => 172
  | boardType => 176
  | zeroPulseWidth => 180
  | validNumThreshold => 272
  | grayInflection3 => 276
  | grayInflection4 => 280
  | grayDistanceRevise4 => 284
  | grayDistanceRevise5 => 288
  | dustThreshold => 292
  | minTargetSize => 296
  | alarmOutputThreshold => 300
  | pcCommandValue => 304

/-- The word at an address, the lowest byte first. -/
def littleWord (buf : Bytes) (i : ℕ) : Word := buf (i + 3) ++ buf (i + 2) ++ buf (i + 1) ++ buf i

/-- `Sys_Para` behind a copy of `sizeof(Sys_Para)` bytes over it. -/
def SysPara.ofBytes (buf : Bytes) : SysPara where
  updatePosFlag := buf 0 != 0
  word := fun m => littleWord buf m.offset
  niosVer := fun i => buf (84 + i)
  fpgaVer := fun i => buf (88 + i)
  devType := fun i => buf (184 + i)
  devPn := fun i => buf (204 + i)
  devSn := fun i => buf (224 + i)
  laserPresdo := fun i => buf (240 + i)
  xxx1 := buf 270
  xxx2 := buf 271

/-- `FPGA_VERSION`, which is also `NIOS_VERSION`: `"4.12"`. -/
def fpgaVersion : Fin 4 → Byte := ([0x34, 0x2e, 0x31, 0x32] : List Byte).get

/-- The check of `read_sys_para`: `laser_enable` is `ENABLE` or `DISABLE`. -/
def validSysPara (buf : Bytes) : Bool :=
  (buf 4 == 0x11 && buf 5 == 0x11 && buf 6 == 0x11 && buf 7 == 0x11) ||
    (buf 4 == 0x22 && buf 5 == 0x22 && buf 6 == 0x22 && buf 7 == 0x22)

/-- What `read_sys_para` sets behind the copy. `devPnNum` is the memory at the literal `DEV_PN_NUM`, of
which 20 bytes are copied. -/
def SysPara.override (status : SysPara) (devPnNum : Bytes) : SysPara :=
  let status := { status with updatePosFlag := true }
  let status := ((status.set .motorEnable enable).set .laserEnable enable).set .maxPwmDuty 10
  let status := status.set .dustThreshold 400
  { status with
    niosVer := fpgaVersion
    fpgaVer := fpgaVersion
    devPn := fun i => devPnNum i }

/-- `read_sys_para` with `num` turns of its loop to go, on `SysPara` and the bytes between its members.
`stack` is `buf` before the read. -/
def readSysPara (rom : Eeprom) (stack devPnNum : Bytes) :
    ℕ → SysPara → (Fin 3 → Byte) → SysPara × (Fin 3 → Byte)
  | 0, status, padding => (status, padding)
  | num + 1, status, padding =>
    let buf : Bytes :=
      match eepromSequentialRead rom sysParaAddr sizeofSysPara with
      | some bytes => memcpy stack 0 bytes
      | none => stack
    if validSysPara buf then
      ((SysPara.ofBytes buf).override devPnNum, fun i => buf (1 + i))
    else readSysPara rom stack devPnNum num (status.set .dustThreshold 400) padding

/-- The calls of `set_laser_paramter` in `init_fpga_sys` behind the first, in order: the command and
the member of `SysPara`. -/
def initCalls : List (Setting × SysWord) :=
  [(.laserEnable, .laserEnable), (.laserFreq, .laserFreq), (.laserPulseWidth, .laserPulseWidth),
    (.laserRecvDelay, .laserRecvDelay), (.motorEnable, .motorEnable),
    (.motorSpeed, .motorExpectSpeed), (.zeroDistanceRevise, .zeroDistanceRevise),
    (.zeroAngleRevise, .zeroAngleRevise), (.grayDistanceRevise1, .grayDistanceRevise1),
    (.grayDistanceRevise2, .grayDistanceRevise2), (.grayDistanceRevise3, .grayDistanceRevise3),
    (.grayDistanceRevise4, .grayDistanceRevise4), (.grayDistanceRevise5, .grayDistanceRevise5),
    (.grayInflection1, .grayInflection1), (.grayInflection2, .grayInflection2),
    (.grayInflection3, .grayInflection3), (.grayInflection4, .grayInflection4),
    (.noiseDiffSetting1, .noiseDiffSetting1), (.noiseDiffSetting2, .noiseDiffSetting2),
    (.apdVolSetting, .signalThresold), (.apdVolSetting, .apdVolBase),
    (.tempVolCof1, .tempVoltCof1), (.tempVolCof2, .tempVoltCof2),
    (.tempVolInflection, .tempVoltInflection), (.tempDistanceCof1, .tempDistanceCof1),
    (.tempDistanceCof2, .tempDistanceCof2), (.tempDistanceInflection, .tempDistanceInflection),
    (.minDistanceValue, .minDisplayDistance), (.firstNoiseFilter, .firstNoiseFilter),
    (.daCyclePara1, .daCyclePara1), (.daCyclePara2, .daCyclePara2), (.daCyclePara3, .daCyclePara3),
    (.daCyclePara4, .daCyclePara4), (.daCyclePara5, .daCyclePara5), (.daCyclePara6, .daCyclePara6),
    (.daCyclePara7, .daCyclePara7), (.daCyclePara8, .daCyclePara8), (.daCyclePara9, .daCyclePara9),
    (.minTargetSize, .minTargetSize), (.alarmOutputThreshold, .alarmOutputThreshold),
    (.hwType, .boardType)]

/-- `laser_presdo` and what lies behind it. -/
def SysPara.presdoBytes (para : SysPara) : Bytes := fun i =>
  if h : i < 30 then para.laserPresdo ⟨i, h⟩ else if i = 30 then para.xxx1 else para.xxx2

/-- `init_fpga_sys`. -/
def initFpgaSys (para : SysPara) : List Word :=
  setLaserParamter Device.uploadEn enable ++
    initCalls.flatMap (fun (m, member) => setLaserParamter m.command (para.word member)) ++
    writeLaserPresdo para.presdoBytes

/-- `main` up to its loop, for the position of the switch inputs. -/
def Device.powerUp {φ : Type} (d : Device φ) (stack devPnNum : Bytes) (switchIo : Byte) : Device φ :=
  let d := { d with
    alarmRegion := { d.alarmRegion with changeRegionValue := switchIo, changeRegionFlag := 0x01 } }
  let num : Word := d.alarmRegion.changeRegionValue.setWidth 32 * 3
  let d := ((d.regionReadFromRom num).regionReadFromRom (num + 1)).regionReadFromRom (num + 2)
  let (status, padding) := readSysPara d.eeprom stack devPnNum 5 d.nios.sysPara d.padding
  let d := { d.setPara (fun _ => status) with padding := padding }
  { d with fpga := d.fpga ++ initFpgaSys d.nios.sysPara }

end SingleScan
