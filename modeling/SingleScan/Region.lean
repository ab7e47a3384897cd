import SingleScan.Eeprom
import SingleScan.Fpga2NiosProtocol
import SingleScan.Nios2FpgaProtocol

/-!
# The alarm regions and the parameters in the EEPROM

`region.c`, and the image of `SysPara` in memory that `save_sys_para` and the reply to the PC copy.
-/

namespace SingleScan

/-- `GROUP_OFFSET_ADDR`. -/
def groupOffsetAddr : Word := 0x1000

/-- `REGION_SPACE_SIZE`. -/
def regionSpaceSize : Word := 0x0800

/-- `SYS_PARA_ADDR`. -/
def sysParaAddr : Word := 0x0400

/-- `CUR_ALARM_GROUP`. -/
def curAlarmGroup : Word := 0x0000

/-- `ZENITH_NUMBER`. -/
def zenithNumber : ℕ := 103

/-- `region_t`. -/
structure Region where
  lastIoValue : Fin 2 → Byte
  changeRegionFlag : Byte
  changeRegionValue : Byte
  wrWhich : Byte
  rdWhich : Byte
  zenithSave : Fin 150 → Byte
  buffer : BoundaryTable
  select : Word

/-- The bytes of `buffer` in memory. -/
def bufferBytes (buffer : BoundaryTable) : List Byte :=
  (List.ofFn buffer).flatMap fun (w : BitVec 16) => [w.setWidth 8, (w >>> 8).setWidth 8]

/-- `buffer` behind a copy of bytes over it. -/
def bufferOfBytes (bytes : List Byte) : BoundaryTable := fun i =>
  bytes.getD (2 * i + 1) 0 ++ bytes.getD (2 * i) 0

/-- `region_save2eeprom`. -/
def regionSave2eeprom (rom : Eeprom) (region : Region) : Eeprom :=
  let rom := eepromWriteByte rom 3 (region.select.setWidth 8)
  let offsetAddr := groupOffsetAddr + regionSpaceSize * region.wrWhich.setWidth 32
  let rom := eepromWritePage rom offsetAddr (bufferBytes region.buffer)
  eepromWritePage rom (offsetAddr + BitVec.ofNat 32 (targetNumber * 2))
    ((List.ofFn region.zenithSave).take zenithNumber)

theorem layer_lt (num : Word) : num.toNat % 3 < 3 := Nat.mod_lt _ (by decide)

/-- `region_read_from_rom`: the region with the table of space `num`, and the words for the FPGA. -/
def regionReadFromRom (rom : Eeprom) (region : Region) (num : Word) : Region × List Word :=
  let offsetAddr := groupOffsetAddr + num * regionSpaceSize
  let region :=
    match eepromSequentialRead rom offsetAddr (targetNumber * 2) with
    | some bytes => { region with buffer := bufferOfBytes bytes }
    | none => region
  (region, regionSave2fpga region.buffer ⟨num.toNat % 3, layer_lt num⟩)

/-- `Sys_Para` in memory. Three bytes behind `update_pos_flag` belong to no member. -/
def SysPara.bytes (padding : Fin 3 → Byte) (para : SysPara) : List Byte :=
  let word := fun m => Fpga2Nios.littleEndian (para.word m)
  [if para.updatePosFlag then 1 else 0] ++ List.ofFn padding ++
    [.laserEnable, .laserFreq, .laserRecvDelay, .motorEnable, .motorExpectSpeed,
      .zeroDistanceRevise, .zeroAngleRevise, .grayDistanceRevise1, .grayDistanceRevise2,
      .grayDistanceRevise3, .laserPulseWidth, .signalThresold, .noiseDiffSetting1,
      .noiseDiffSetting2, .apdVolBase, .grayInflection1, .grayInflection2, .minDisplayDistance,
      .placeholer1, .firstNoiseFilter].flatMap word ++
    List.ofFn para.niosVer ++ List.ofFn para.fpgaVer ++
    [.tempVoltCof1, .tempVoltCof2, .tempVoltInflection, .tempDistanceCof1, .tempDistanceCof2,
      .tempDistanceInflection, .zeroValue, .sysTemp, .maxPwmDuty, .minPwmDuty, .motorRealSpeed,
      .dustAlarmThreshold, .daCyclePara1, .daCyclePara2, .daCyclePara3, .daCyclePara4,
      .daCyclePara5, .daCyclePara6, .daCyclePara7, .daCyclePara8, .daCyclePara9, .boardType,
      .zeroPulseWidth].flatMap word ++
    List.ofFn para.devType ++ List.ofFn para.devPn ++ List.ofFn para.devSn ++
    List.ofFn para.laserPresdo ++ [para.xxx1, para.xxx2] ++
    [.validNumThreshold, .grayInflection3, .grayInflection4, .grayDistanceRevise4,
      .grayDistanceRevise5, .dustThreshold, .minTargetSize, .alarmOutputThreshold,
      .pcCommandValue].flatMap word

/-- `sizeof(Sys_Para)`. -/
def sizeofSysPara : ℕ := 308

theorem SysPara.length_bytes (padding : Fin 3 → Byte) (para : SysPara) :
    (para.bytes padding).length = sizeofSysPara := by
  unfold SysPara.bytes
  simp only [List.length_append, List.length_ofFn, List.length_cons, List.length_nil,
    List.length_flatMap, Fpga2Nios.littleEndian]
  rfl

/-- `save_sys_para`. -/
def saveSysPara (rom : Eeprom) (padding : Fin 3 → Byte) (para : SysPara) : Eeprom :=
  eepromWritePage rom sysParaAddr (para.bytes padding)

end SingleScan
