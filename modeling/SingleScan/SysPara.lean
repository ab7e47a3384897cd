import SingleScan.Basic

/-!
# The parameters of the device

`Sys_Para` of `bsp.h` and the value that `bsp.c` gives `SysPara`. The members of four bytes are one
table: `SysWord` names them in the order of the struct.
-/

namespace SingleScan

abbrev Byte := BitVec 8

/-- The members of `Sys_Para` that have four bytes, in order. -/
inductive SysWord
  | laserEnable | laserFreq | laserRecvDelay | motorEnable | motorExpectSpeed
  | zeroDistanceRevise | zeroAngleRevise
  | grayDistanceRevise1 | grayDistanceRevise2 | grayDistanceRevise3
  | laserPulseWidth | signalThresold | noiseDiffSetting1 | noiseDiffSetting2 | apdVolBase
  | grayInflection1 | grayInflection2 | minDisplayDistance | placeholer1 | firstNoiseFilter
  | tempVoltCof1 | tempVoltCof2 | tempVoltInflection
  | tempDistanceCof1 | tempDistanceCof2 | tempDistanceInflection
  | zeroValue | sysTemp | maxPwmDuty | minPwmDuty | motorRealSpeed | dustAlarmThreshold
  | daCyclePara1 | daCyclePara2 | daCyclePara3 | daCyclePara4 | daCyclePara5
  | daCyclePara6 | daCyclePara7 | daCyclePara8 | daCyclePara9
  | boardType | zeroPulseWidth
  | validNumThreshold | grayInflection3 | grayInflection4
  | grayDistanceRevise4 | grayDistanceRevise5
  | dustThreshold | minTargetSize | alarmOutputThreshold | pcCommandValue
deriving DecidableEq, Repr

/-- `Sys_Para`. -/
structure SysPara where
  updatePosFlag : Bool
  word : SysWord → Word
  niosVer : Fin 4 → Byte
  fpgaVer : Fin 4 → Byte
  devType : Fin 20 → Byte
  devPn : Fin 20 → Byte
  devSn : Fin 16 → Byte
  laserPresdo : Fin 30 → Byte
  xxx1 : Byte
  xxx2 : Byte

/-- The assignment `SysPara.member = value`. -/
def SysPara.set (para : SysPara) (member : SysWord) (value : Word) : SysPara :=
  { para with word := fun m => if m = member then value else para.word m }

@[simp]
theorem SysPara.set_self (para : SysPara) (member : SysWord) (value : Word) :
    (para.set member value).word member = value := by simp [SysPara.set]

@[simp]
theorem SysPara.set_of_ne (para : SysPara) {member other : SysWord} (value : Word)
    (h : other ≠ member) : (para.set member value).word other = para.word other := by
  simp [SysPara.set, h]

end SingleScan
