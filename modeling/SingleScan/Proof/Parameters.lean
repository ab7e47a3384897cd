import SingleScan.Proof.Commands
import SingleScan.Proof.Region

/-!
# The parameters on both sides

A command of the table stores a value in `SysPara` and sends it to the register of the FPGA that
`command_module` decodes for the command. When the two agree.
-/

namespace SingleScan

open Pc2Dev

/-- The registers after the packets of some calls: each takes the words sent for its command. -/
theorem CommandLink.param_of_sends {s : CommandModule.State} (hwaiting : CommandLink.Waiting s)
    {sends : List CommandLink.Send} {bus : List (Clocked.Bus Word)}
    (hbus : Clocked.Spaced false (sends.flatMap CommandLink.Send.words) bus)
    (p : CommandModule.Param) :
    (CommandModule.run s bus).param p =
      (CommandLink.dataFor p.command sends).foldl p.decode (s.param p) := by
  rw [CommandLink.sends_words] at hbus
  obtain ⟨-, hregs⟩ := CommandLink.run_packets hwaiting hbus
  obtain ⟨hparam, -, -⟩ := CommandLink.apply_sends sends (CommandLink.regsOf s)
  rw [← hregs] at hparam
  exact hparam p

namespace Setting

/-- The register that the command loads, if `command_module` knows it. -/
def register : Setting → Option CommandModule.Param
  | hwType => some .hwType
  | laserEnable => some .laserEnable
  | laserFreq => some .laserFreq
  | laserPulseWidth => some .laserPulseWidth
  | laserRecvDelay => some .laserRecvDelay
  | motorEnable => some .motorEnable
  | motorSpeed => some .motorSpeed
  | zeroDistanceRevise => some .zeroDistanceRevise
  | zeroAngleRevise => some .zeroAngleRevise
  | grayDistanceRevise1 => some .grayDistanceRevise1
  | grayDistanceRevise2 => some .grayDistanceRevise2
  | grayDistanceRevise3 => some .grayDistanceRevise3
  | grayDistanceRevise4 => some .grayDistanceRevise4
  | grayDistanceRevise5 => some .grayDistanceRevise5
  | grayInflection1 => some .grayInflection1
  | grayInflection2 => some .grayInflection2
  | grayInflection3 => some .grayInflection3
  | grayInflection4 => some .grayInflection4
  | noiseDiffSetting1 => some .noiseDiffSetting1
  | noiseDiffSetting2 => some .noiseDiffSetting2
  | signalThreshold => none
  | apdVolSetting => some .apdVoltSetting
  | tempVolCof1 => some .tempVoltCof1
  | tempVolCof2 => some .tempVoltCof2
  | tempVolInflection => some .tempVoltInflection
  | tempDistanceCof1 => some .tempDistanceCof1
  | tempDistanceCof2 => some .tempDistanceCof2
  | tempDistanceInflection => some .tempDistanceInflection
  | validNumThreshold => some .validNumThreshold
  | minDistanceValue => some .minDisplayDistance
  | firstNoiseFilter => some .firstNoiseFilter
  | dustAlarmThreshold => some .dustAlarmThreshold
  | daCyclePara1 => some .daCyclePara1
  | daCyclePara2 => some .daCyclePara2
  | daCyclePara3 => some .daCyclePara3
  | daCyclePara4 => some .daCyclePara4
  | daCyclePara5 => some .daCyclePara5
  | daCyclePara6 => some .daCyclePara6
  | daCyclePara7 => some .daCyclePara7
  | daCyclePara8 => some .daCyclePara8
  | daCyclePara9 => some .daCyclePara9
  | minTargetSize => some .minTargetSize
  | alarmOutputThreshold => some .alarmOutputThreshold

theorem register_command (m : Setting) {p : CommandModule.Param} (hp : m.register = some p) :
    p.command = m.command := by
  cases m <;> cases hp <;> rfl

/-- `laser_enable` and `motor_enable`, whose registers are one bit. -/
def switches : List Setting := [laserEnable, motorEnable]

/-- The commands that accept more values than their register holds. -/
def wide : List Setting :=
  [hwType, grayDistanceRevise1, grayDistanceRevise2, grayDistanceRevise3, grayDistanceRevise4,
    grayDistanceRevise5, grayInflection1, grayInflection2, grayInflection3, grayInflection4,
    noiseDiffSetting1, noiseDiffSetting2, apdVolSetting, minDistanceValue]

/-- The range check of every other command keeps the value within the register. -/
theorem lt_width_of_accepts (m : Setting) {p : CommandModule.Param} (hp : m.register = some p)
    (hswitch : m ∉ switches) (hwide : m ∉ wide) {para : Word} (haccepts : m.accepts para = true) :
    para.toNat < 2 ^ p.width := by
  have hpara : para.toNat < 2 ^ 32 := para.isLt
  cases m
  all_goals first
    | exact absurd (by decide) hswitch
    | exact absurd (by decide) hwide
    | skip
  all_goals cases hp
  all_goals simp [accepts] at haccepts
  all_goals simp only [CommandModule.Param.width]
  all_goals omega

/-- A register that is no switch takes an accepted value, up to its width. -/
theorem decode_of_accepts (m : Setting) {p : CommandModule.Param} (hp : m.register = some p)
    (hswitch : m ∉ switches) {para : Word} (haccepts : m.accepts para = true)
    (old : BitVec p.width) : p.decode old para = para.setWidth p.width := by
  cases m
  case motorSpeed =>
    cases hp
    have hrange : 8 ≤ para.toNat ∧ para.toNat ≤ 15 := by
      simpa [accepts] using haccepts
    exact if_pos hrange
  all_goals first
    | exact absurd (by decide) hswitch
    | cases hp
  all_goals rfl

/-- A switch tells `enable` from every other word. -/
theorem decode_switch (m : Setting) {p : CommandModule.Param} (hp : m.register = some p)
    (hswitch : m ∈ switches) (old : BitVec p.width) (w : Word) :
    (p.decode old w).toNat = if w = enable then 1 else 0 := by
  have hone : p = .laserEnable ∨ p = .motorEnable := by
    rcases List.mem_pair.mp hswitch with rfl | rfl
    · exact .inl (Option.some.inj hp).symm
    · exact .inr (Option.some.inj hp).symm
  rcases hone with rfl | rfl <;> simp only [CommandModule.Param.decode] <;> split_ifs <;> rfl

theorem find_command (m : Setting) :
    (Setting.all.find? fun m' => m'.command.setWidth 32 = m.command.setWidth 32) = some m := by
  cases m <;> decide

/-- The commands with a handler of their own. -/
def handled : List Word :=
  [pcSetAlarmRegion, pcReadAlarmRegion, pcLoadRegionData, pcReqRegionData, pcReqRadarPara,
    pcSavaSysPara, pcResetNios, pcSetSn, pcSetDevType, pcSetDustThreshold, laserPresdo,
    pcRemoteUpdateWrite, pcRemoteUpdateRead, pcRemoteUpdateErase]

theorem command_not_handled (m : Setting) : m.command.setWidth 32 ∉ handled := by
  cases m <;> decide

end Setting

namespace Device

variable {φ : Type} (d : Device φ) (driver : FlashDriver φ) (socket : ℕ) (buf : Bytes)

theorem execute_setting {m : Setting} (hcommand : d.pc2nios.command = m.command.setWidth 32)
    (para : Word) : d.execute driver socket buf para = d.change m para := by
  have hnot := m.command_not_handled
  rw [← hcommand] at hnot
  simp only [Setting.handled, List.mem_cons, List.not_mem_nil, or_false, not_or] at hnot
  obtain ⟨h₁, h₂, h₃, h₄, h₅, h₆, h₇, h₈, h₉, h₁₀, h₁₁, h₁₂, h₁₃, h₁₄⟩ := hnot
  unfold execute
  dsimp only
  rw [if_neg h₁, if_neg h₂, if_neg h₃, if_neg h₄, if_neg h₅, if_neg h₆, if_neg h₇, if_neg h₈,
    if_neg h₉, if_neg h₁₀, if_neg h₁₁, if_neg h₁₂, if_neg h₁₃, if_neg h₁₄, hcommand,
    Setting.find_command]

theorem serve_setting {m : Setting} (hcommand : commandOf buf = m.command.setWidth 32) :
    d.serve driver socket buf = (d.readHeader buf).change m (paraOf buf) := by
  have hset : commandOf buf ≠ pcSetAlarmRegion := by
    intro heq
    exact m.command_not_handled (by rw [← hcommand, heq]; decide)
  unfold serve
  dsimp only
  rw [if_neg hset]
  exact execute_setting _ driver socket buf hcommand _

/-- An accepted value: the member takes it, and the FPGA is sent it. -/
theorem serve_accepted {m : Setting} (hcommand : commandOf buf = m.command.setWidth 32)
    (haccepts : m.accepts (paraOf buf) = true) :
    (d.serve driver socket buf).nios.sysPara.word (m.member (paraOf buf)) = paraOf buf ∧
      (d.serve driver socket buf).fpga =
        d.fpga ++ SingleScan.setLaserParamter m.command (paraOf buf) := by
  rw [serve_setting d driver socket buf hcommand, change, if_pos haccepts]
  exact ⟨SysPara.set_self _ _ _, rfl⟩

end Device

/-- **A parameter on both sides.** -/
theorem register_agrees {φ : Type} (d : Device φ) (driver : FlashDriver φ) (socket : ℕ) (buf : Bytes)
    (m : Setting) (hknown : m ≠ .signalThreshold)
    (hcommand : commandOf buf = m.command.setWidth 32) (haccepts : m.accepts (paraOf buf) = true)
    {s : CommandModule.State} (hwaiting : CommandLink.Waiting s) {words : List Word}
    (hwords : (d.serve driver socket buf).fpga = d.fpga ++ words)
    {bus : List (Clocked.Bus Word)} (hbus : Clocked.Spaced false words bus) :
    (d.serve driver socket buf).nios.sysPara.word (m.member (paraOf buf)) = paraOf buf ∧
      ∃ p : CommandModule.Param, p.command = m.command ∧
        (m ∈ Setting.switches → ((CommandModule.run s bus).param p).toNat =
          if (d.serve driver socket buf).nios.sysPara.word (m.member (paraOf buf)) = enable then 1
          else 0) ∧
        (m ∉ Setting.switches → (paraOf buf).toNat < 2 ^ p.width →
          ((CommandModule.run s bus).param p).toNat =
            ((d.serve driver socket buf).nios.sysPara.word (m.member (paraOf buf))).toNat) ∧
        (m ∉ Setting.switches → m ∉ Setting.wide → (paraOf buf).toNat < 2 ^ p.width) := by
  obtain ⟨hfield, hfpga⟩ := d.serve_accepted driver socket buf hcommand haccepts
  have hsent : words = setLaserParamter m.command (paraOf buf) :=
    List.append_cancel_left (hwords.symm.trans hfpga)
  obtain ⟨p, hp⟩ : ∃ p, m.register = some p := by
    cases m <;> first | exact ⟨_, rfl⟩ | exact absurd rfl hknown
  have hown := m.register_command hp
  have hparam : (CommandModule.run s bus).param p = p.decode (s.param p) (paraOf buf) := by
    have hsends : Clocked.Spaced false
        ([CommandLink.Send.setLaserParamter m.command (paraOf buf)].flatMap CommandLink.Send.words)
        bus := by
      rw [List.flatMap_cons, List.flatMap_nil, List.append_nil]
      rwa [hsent] at hbus
    rw [CommandLink.param_of_sends hwaiting hsends p]
    simp [CommandLink.dataFor, hown]
  refine ⟨hfield, p, hown, ?_, ?_,
    fun hswitch hwide => m.lt_width_of_accepts hp hswitch hwide haccepts⟩
  · intro hswitch
    rw [hfield, hparam, m.decode_switch hp hswitch]
  · intro hswitch hfits
    rw [hfield, hparam, m.decode_of_accepts hp hswitch haccepts, BitVec.toNat_setWidth]
    exact Nat.mod_eq_of_lt hfits

/-- A packet with a command of the table and its value. -/
def settingPacket (m : Setting) (para : Word) : Bytes :=
  literal
    ([0x12, 0x34] ++ (bytesOf (m.command.setWidth 32)).drop 2 ++ [0, 0, 0, 0] ++ bytesOf para)

/-- The words of an angle of 240, as they reach the FPGA. -/
def angleBus : List (Clocked.Bus Word) :=
  Clocked.tight 0 (setLaserParamter Setting.zeroAngleRevise.command 240)

theorem register_agrees_angle :
    ∃ p : CommandModule.Param, p.command = Setting.zeroAngleRevise.command ∧
      ((CommandModule.run CommandLink.awake angleBus).param p).toNat = 240 := by
  have hpara : paraOf (settingPacket .zeroAngleRevise 240) = 240 := by decide
  obtain ⟨-, hfpga⟩ := zeroedDevice.serve_accepted flashOfBytes 0 (settingPacket .zeroAngleRevise 240)
    (by decide : _ = Setting.zeroAngleRevise.command.setWidth 32) (by decide)
  obtain ⟨hfield, p, hcommand, -, hvalue, hfits⟩ := register_agrees zeroedDevice flashOfBytes 0
    (settingPacket .zeroAngleRevise 240) .zeroAngleRevise (by decide) (by decide) (by decide)
    CommandLink.waiting_awake hfpga (Clocked.spaced_tight 0 _)
  rw [hpara] at hfield hvalue hfits
  refine ⟨p, hcommand, ?_⟩
  have hregister := hvalue (by decide) (hfits (by decide) (by decide))
  rwa [hfield] at hregister

/-- `LASER_ENABLE` with `ENABLE` leaves `0x11111111` in `SysPara` and 1 in the FPGA. -/
theorem laserEnable_differs :
    ¬ ∀ (buf : Bytes) (m : Setting), commandOf buf = m.command.setWidth 32 →
      m.accepts (paraOf buf) = true →
      ∃ p : CommandModule.Param, p.command = m.command ∧
        ((CommandModule.run CommandLink.awake (Clocked.tight 0
            (setLaserParamter m.command (paraOf buf)))).param p).toNat =
          ((zeroedDevice.serve flashOfBytes 0 buf).nios.sysPara.word
            (m.member (paraOf buf))).toNat := by
  intro h
  obtain ⟨hfield, -⟩ := zeroedDevice.serve_accepted flashOfBytes 0 (settingPacket .laserEnable enable)
    (by decide : _ = Setting.laserEnable.command.setWidth 32) (by decide)
  obtain ⟨p, hcommand, hvalue⟩ := h (settingPacket .laserEnable enable) .laserEnable (by decide)
    (by decide)
  obtain rfl : p = .laserEnable := by
    cases p <;> first | rfl | exact absurd hcommand (by decide)
  rw [hfield] at hvalue
  exact absurd hvalue (by decide)

end SingleScan
