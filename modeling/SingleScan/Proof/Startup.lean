import SingleScan.Proof.Firmware
import SingleScan.Proof.Parameters
import SingleScan.Proof.Stream

/-!
# The parameters behind a restart

The image of `SysPara` in the EEPROM, what `read_sys_para` makes of it, and what the registers of the
FPGA hold behind `init_fpga_sys`.
-/

namespace SingleScan

/-! ### The image of the parameters -/

theorem littleWord_littleEndian (pre post : List Byte) (w : Word) :
    littleWord (literal (pre ++ (Fpga2Nios.littleEndian w ++ post))) pre.length = w := by
  have hbyte : ∀ i < 4, literal (pre ++ (Fpga2Nios.littleEndian w ++ post)) (pre.length + i) =
      literal (Fpga2Nios.littleEndian w) i := by
    intro i hi
    rw [literal_append_right, literal_append_left (show i < (Fpga2Nios.littleEndian w).length from hi)]
  unfold littleWord
  rw [hbyte 3 (by decide), hbyte 2 (by decide), hbyte 1 (by decide),
    show literal _ pre.length = _ from hbyte 0 (by decide)]
  show (w >>> 24).setWidth 8 ++ (w >>> 16).setWidth 8 ++ (w >>> 8).setWidth 8 ++ w.setWidth 8 = w
  ext i hi
  simp only [BitVec.getElem_append, BitVec.getElem_setWidth, BitVec.getLsbD_ushiftRight]
  split_ifs <;> simp only [← BitVec.getLsbD_eq_getElem] <;> congr 1 <;> omega

theorem littleWord_flatMap (para : SysPara) (pre post : List Byte) (table : List SysWord)
    {m : SysWord} (hm : m ∈ table) :
    littleWord
      (literal (pre ++ (table.flatMap (fun m => Fpga2Nios.littleEndian (para.word m)) ++ post)))
      (pre.length + 4 * table.idxOf m) = para.word m := by
  induction table generalizing pre with
  | nil => cases hm
  | cons x table ih =>
      rw [List.flatMap_cons, List.append_assoc]
      by_cases hx : x = m
      · subst hx
        rw [List.idxOf_cons_self, Nat.mul_zero, Nat.add_zero]
        exact littleWord_littleEndian pre _ _
      · have hmem : m ∈ table := (List.mem_cons.mp hm).resolve_left (Ne.symm hx)
        have hrest := ih (pre ++ Fpga2Nios.littleEndian (para.word x)) hmem
        rw [List.idxOf_cons_ne _ hx]
        rw [List.append_assoc, List.length_append] at hrest
        rw [show pre.length + 4 * (table.idxOf m).succ =
          pre.length + (Fpga2Nios.littleEndian (para.word x)).length + 4 * table.idxOf m by
            show _ = pre.length + 4 + _
            omega]
        exact hrest

namespace SysPara

/-- The members in front of `nios_ver`. -/
def frontWords : List SysWord :=
  [.laserEnable, .laserFreq, .laserRecvDelay, .motorEnable, .motorExpectSpeed,
    .zeroDistanceRevise, .zeroAngleRevise, .grayDistanceRevise1, .grayDistanceRevise2,
    .grayDistanceRevise3, .laserPulseWidth, .signalThresold, .noiseDiffSetting1,
    .noiseDiffSetting2, .apdVolBase, .grayInflection1, .grayInflection2, .minDisplayDistance,
    .placeholer1, .firstNoiseFilter]

/-- The members between `fpga_ver` and `dev_type`. -/
def middleWords : List SysWord :=
  [.tempVoltCof1, .tempVoltCof2, .tempVoltInflection, .tempDistanceCof1, .tempDistanceCof2,
    .tempDistanceInflection, .zeroValue, .sysTemp, .maxPwmDuty, .minPwmDuty, .motorRealSpeed,
    .dustAlarmThreshold, .daCyclePara1, .daCyclePara2, .daCyclePara3, .daCyclePara4,
    .daCyclePara5, .daCyclePara6, .daCyclePara7, .daCyclePara8, .daCyclePara9, .boardType,
    .zeroPulseWidth]

/-- The members behind `xxx2`. -/
def backWords : List SysWord :=
  [.validNumThreshold, .grayInflection3, .grayInflection4, .grayDistanceRevise4,
    .grayDistanceRevise5, .dustThreshold, .minTargetSize, .alarmOutputThreshold, .pcCommandValue]

/-- The bytes of a table of members. -/
def image (para : SysPara) (table : List SysWord) : List Byte :=
  table.flatMap fun m => Fpga2Nios.littleEndian (para.word m)

variable (padding : Fin 3 → Byte) (para : SysPara)

def frontBytes : List Byte := [if para.updatePosFlag then 1 else 0] ++ List.ofFn padding

def versionBytes : List Byte := List.ofFn para.niosVer ++ List.ofFn para.fpgaVer

def textBytes : List Byte :=
  List.ofFn para.devType ++ List.ofFn para.devPn ++ List.ofFn para.devSn ++
    List.ofFn para.laserPresdo ++ [para.xxx1, para.xxx2]

theorem bytes_eq :
    para.bytes padding =
      frontBytes padding para ++ (para.image frontWords ++ (versionBytes para ++
        (para.image middleWords ++ (textBytes para ++ (para.image backWords ++ []))))) := by
  unfold bytes frontBytes versionBytes textBytes
  simp only [List.append_assoc, List.append_nil]
  rfl

theorem length_image (table : List SysWord) : (para.image table).length = 4 * table.length := by
  unfold image
  induction table with
  | nil => rfl
  | cons m table ih =>
      rw [List.flatMap_cons, List.length_append, ih, List.length_cons]
      show 4 + _ = _
      omega

/-- **The image.** Every member lies at its offset. -/
theorem littleWord_bytes (m : SysWord) :
    littleWord (literal (para.bytes padding)) m.offset = para.word m := by
  have hfront : (frontBytes padding para).length = 4 := rfl
  have hversion : (versionBytes para).length = 8 := rfl
  have htext : (textBytes para).length = 88 := rfl
  have htables : m ∈ frontWords ∨ m ∈ middleWords ∨ m ∈ backWords := by
    cases m <;> decide
  rw [bytes_eq]
  obtain hm | hm | hm := htables
  · have hoffset : m.offset = (frontBytes padding para).length + 4 * frontWords.idxOf m := by
      rw [hfront]
      revert m
      decide
    rw [hoffset]
    exact littleWord_flatMap para _ _ frontWords hm
  · have hoffset : m.offset = (frontBytes padding para ++ para.image frontWords ++
        versionBytes para).length + 4 * middleWords.idxOf m := by
      rw [List.length_append, List.length_append, hfront, hversion, length_image]
      revert m
      decide
    rw [hoffset, ← List.append_assoc, ← List.append_assoc]
    exact littleWord_flatMap para _ _ middleWords hm
  · have hoffset : m.offset = (frontBytes padding para ++ para.image frontWords ++
        versionBytes para ++ para.image middleWords ++ textBytes para).length +
          4 * backWords.idxOf m := by
      rw [List.length_append, List.length_append, List.length_append, List.length_append, hfront,
        hversion, htext, length_image, length_image]
      revert m
      decide
    rw [hoffset, ← List.append_assoc, ← List.append_assoc, ← List.append_assoc, ← List.append_assoc]
    exact littleWord_flatMap para _ _ backWords hm

end SysPara

/-! ### Saving and reading -/

theorem saveSysPara_get (rom : Eeprom) (padding : Fin 3 → Byte) (para : SysPara) {i : ℕ}
    (hi : i < sizeofSysPara) :
    saveSysPara rom padding para (sysParaByteAddr i) = literal (para.bytes padding) i := by
  have hsize : sizeofSysPara = 308 := rfl
  have hlength := SysPara.length_bytes padding para
  have haddr : sysParaAddr.toNat = 1024 := rfl
  have hi' : i < (para.bytes padding).length := by omega
  have hget : Store.storeFrom sysParaByteAddr 0 (para.bytes padding) rom (sysParaByteAddr (0 + i)) =
      (para.bytes padding).get ⟨i, hi'⟩ := by
    refine Store.storeFrom_get hi' ?_
    intro j hj heq
    rw [Nat.zero_add, Nat.zero_add, ← BitVec.toNat_inj, toNat_sysParaByteAddr (by omega),
      toNat_sysParaByteAddr hi] at heq
    omega
  rw [Nat.zero_add] at hget
  rw [saveSysPara, eepromWritePage_eq rom (.inr (by omega))]
  refine hget.trans ?_
  simp [literal, hi']

theorem sequentialRead_sysPara (rom : Eeprom) (bytes : List Byte)
    (hlength : bytes.length = sizeofSysPara)
    (hstored : ∀ i < sizeofSysPara, rom (sysParaByteAddr i) = literal bytes i) :
    eepromSequentialRead rom sysParaAddr sizeofSysPara = some bytes := by
  rw [eepromSequentialRead, if_neg (by decide)]
  congr 1
  refine List.ext_getElem (by simp [hlength]) ?_
  intro i hi hi'
  rw [List.getElem_map, List.getElem_range]
  refine (hstored i (by omega)).trans ?_
  simp [literal, hi']

theorem byte_littleWord (buf : Bytes) (i : ℕ) {k : ℕ} (hk : k < 4) :
    (littleWord buf i >>> (8 * k)).setWidth 8 = buf (i + k) := by
  unfold littleWord
  ext j hj
  simp only [BitVec.getElem_setWidth, BitVec.getLsbD_ushiftRight, BitVec.getLsbD_append]
  rcases k with _ | _ | _ | _ | k
  · rw [if_pos (by omega), BitVec.getLsbD_eq_getElem (by omega)]
    simp
  · rw [if_neg (by omega), if_pos (by omega), BitVec.getLsbD_eq_getElem (by omega)]
    simp
  · rw [if_neg (by omega), if_neg (by omega), if_pos (by omega), BitVec.getLsbD_eq_getElem (by omega)]
    congr 1
    omega
  · rw [if_neg (by omega), if_neg (by omega), if_neg (by omega), BitVec.getLsbD_eq_getElem (by omega)]
    congr 1
    omega
  · omega

/-- Parameters that were saved with a switch in `laser_enable` are taken. -/
theorem validSysPara_of_switch {buf : Bytes}
    (hswitch : littleWord buf 4 = enable ∨ littleWord buf 4 = disable) : validSysPara buf = true := by
  have hbyte : ∀ k < 4, (littleWord buf 4 >>> (8 * k)).setWidth 8 = buf (4 + k) :=
    fun k hk => byte_littleWord buf 4 hk
  have h₄ := hbyte 0 (by decide)
  have h₅ := hbyte 1 (by decide)
  have h₆ := hbyte 2 (by decide)
  have h₇ := hbyte 3 (by decide)
  unfold validSysPara
  rw [← h₄, ← h₅, ← h₆, ← h₇]
  rcases hswitch with hswitch | hswitch <;> rw [hswitch] <;> decide

theorem memcpy_of_lt (dest : Bytes) {src : List Byte} {i : ℕ} (hi : i < src.length) :
    memcpy dest 0 src i = literal src i := by
  simp [memcpy, literal, hi]

theorem SysWord.offset_lt (m : SysWord) : m.offset + 3 < sizeofSysPara := by
  cases m <;> decide

/-- The members that `read_sys_para` sets itself. -/
def overridden : List SysWord := [.motorEnable, .laserEnable, .maxPwmDuty, .dustThreshold]

theorem SysPara.override_word (status : SysPara) (devPnNum : Bytes) {m : SysWord}
    (hm : m ∉ overridden) : (status.override devPnNum).word m = status.word m := by
  simp only [overridden, List.mem_cons, List.not_mem_nil, or_false, not_or] at hm
  obtain ⟨hmotor, hlaser, hduty, hdust⟩ := hm
  simp [SysPara.override, SysPara.set, hmotor, hlaser, hduty, hdust]

/-- **`read_sys_para` behind `save_sys_para`.** -/
theorem readSysPara_saved {rom : Eeprom} {padding padding' : Fin 3 → Byte} {para status : SysPara}
    (hstored : ∀ i < sizeofSysPara, rom (sysParaByteAddr i) = literal (para.bytes padding) i)
    (hswitch : para.word .laserEnable = enable ∨ para.word .laserEnable = disable)
    (stack devPnNum : Bytes) (num : ℕ) {m : SysWord} (hm : m ∉ overridden) :
    (readSysPara rom stack devPnNum (num + 1) status padding').1.word m = para.word m := by
  have hlength := SysPara.length_bytes padding para
  have hread := sequentialRead_sysPara rom _ hlength hstored
  have hword : ∀ m : SysWord,
      littleWord (memcpy stack 0 (para.bytes padding)) m.offset = para.word m := by
    intro m
    have hoffset := m.offset_lt
    rw [← SysPara.littleWord_bytes padding para m]
    unfold littleWord
    rw [memcpy_of_lt, memcpy_of_lt, memcpy_of_lt, memcpy_of_lt] <;> omega
  have htaken : validSysPara (memcpy stack 0 (para.bytes padding)) = true := by
    refine validSysPara_of_switch ?_
    rw [show (4 : ℕ) = SysWord.laserEnable.offset from rfl, hword]
    exact hswitch
  rw [readSysPara, hread]
  dsimp only
  rw [if_pos htaken]
  dsimp only
  rw [SysPara.override_word _ _ hm]
  exact hword m

/-! ### The words for the FPGA -/

namespace CommandLink

/-- The calls of `set_laser_paramter` in `init_fpga_sys`. -/
def initSends (para : SysPara) : List Send :=
  .setLaserParamter Device.uploadEn enable ::
    initCalls.map fun (m, member) => .setLaserParamter m.command (para.word member)

theorem initFpgaSys_eq (para : SysPara) :
    initFpgaSys para = (initSends para).flatMap Send.words ++ writeLaserPresdo para.presdoBytes := by
  rw [initFpgaSys, initSends, List.flatMap_cons, List.flatMap_map]
  rfl

theorem foldl_take_packet (p : Packet) (todo : List Packet) (regs : Regs) :
    p.words.foldl Receiver.take ⟨.between, p :: todo, regs⟩ = ⟨.between, todo, regs.apply p⟩ := by
  obtain ⟨w, ws, hdata⟩ := List.exists_cons_of_length_pos p.nonempty
  have hlength : p.data.length = 1 + ws.length := by
    rw [hdata, List.length_cons, Nat.add_comm]
  rw [Packet.words, hdata, List.foldl_cons, List.foldl_cons, List.cons_append, List.foldl_cons,
    List.foldl_append]
  simp only [Receiver.take]
  rw [foldl_take_payload (by omega), List.foldl_cons, List.foldl_nil, Receiver.take]
  dsimp only
  rw [if_neg (by omega), Regs.apply, hdata, Regs.loadAll]

theorem foldl_take_packets (ps todo : List Packet) (regs : Regs) :
    (ps.flatMap Packet.words).foldl Receiver.take ⟨.between, ps ++ todo, regs⟩ =
      ⟨.between, todo, ps.foldl Regs.apply regs⟩ := by
  induction ps generalizing regs with
  | nil => rfl
  | cons p ps ih =>
      rw [List.flatMap_cons, List.foldl_append, List.cons_append, foldl_take_packet, ih,
        List.foldl_cons]

/-- The laser pattern on its way changes no parameter register. -/
theorem foldl_take_presdo (arr : ℕ → BitVec 8) (regs : Regs) (p : CommandModule.Param) :
    ((writeLaserPresdo arr).foldl Receiver.take ⟨.between, [presdoPacket arr], regs⟩).regs.param p =
      regs.param p := by
  obtain ⟨w, ws, hwords⟩ : ∃ w ws, presdoWords arr ++ [0xccccdddd] = w :: ws := ⟨_, _, rfl⟩
  have hlength : ws.length = 8 := by
    have := congrArg List.length hwords
    simpa [presdoWords_length] using this.symm
  have hother : p.command ≠ CommandModule.laserPseudo := by
    cases p <;> decide
  rw [writeLaserPresdo_eq, hwords, List.foldl_cons, List.foldl_cons, List.foldl_cons]
  simp only [Receiver.take]
  rw [foldl_take_payload (by rw [presdoPacket_length, hlength]; decide)]
  have hload : (regs.loadAll CommandModule.laserPseudo 0 (w :: ws)).param p = regs.param p :=
    loadAll_of_ne.1 p hother
  exact hload

theorem param_behind_presdo {s : CommandModule.State} (hwaiting : Waiting s) {sends : List Send}
    {arr : ℕ → BitVec 8} {bus : List (Clocked.Bus Word)}
    (hbus : Clocked.Spaced false (sends.flatMap Send.words ++ writeLaserPresdo arr) bus)
    (p : CommandModule.Param) :
    (CommandModule.run s bus).param p = (dataFor p.command sends).foldl p.decode (s.param p) := by
  obtain ⟨rest, hrest⟩ := writeLaserPresdo_front arr
  rw [sends_words] at hbus
  have hfront : (sends.map Send.packet).flatMap Packet.words ++ writeLaserPresdo arr <+:
      (sends.map Send.packet ++ [presdoPacket arr]).flatMap Packet.words := by
    rw [List.flatMap_append, ← hrest, ← List.append_assoc]
    exact List.prefix_append _ _
  have hparam := (follows_run hwaiting hfront hbus).param
  rw [List.foldl_append, foldl_take_packets] at hparam
  obtain ⟨happly, -, -⟩ := apply_sends sends (regsOf s)
  rw [show (CommandModule.run s bus).param p = _ from congrFun hparam p,
    foldl_take_presdo]
  exact happly p

end CommandLink

/-- The packets of `init_fpga_sys`. -/
def CommandLink.initPackets (para : SysPara) : List Stream.Packet :=
  (initSends para).map Send.stream ++ [presdoStream para.presdoBytes]

theorem CommandLink.whole_initFpgaSys (para : SysPara) :
    Stream.Whole (initFpgaSys para) (initPackets para) := by
  rw [initFpgaSys_eq]
  exact (whole_sends _).append (whole_presdo _)

namespace Device

variable {φ : Type} (d : Device φ)

theorem powerUp_spec (stack devPnNum : Bytes) (switchIo : Byte) :
    (d.powerUp stack devPnNum switchIo).nios.sysPara =
        (readSysPara d.eeprom stack devPnNum 5 d.nios.sysPara d.padding).1 ∧
      ∃ regions, (∀ command, CommandLink.dataFor command regions = []) ∧
        (d.powerUp stack devPnNum switchIo).fpga =
          d.fpga ++ (regions.flatMap CommandLink.Send.words ++
            initFpgaSys (d.powerUp stack devPnNum switchIo).nios.sysPara) := by
  refine ⟨rfl, ?_⟩
  let num : Word := switchIo.setWidth 32 * 3
  let d₀ : Device φ := { d with
    alarmRegion := { d.alarmRegion with changeRegionValue := switchIo, changeRegionFlag := 0x01 } }
  let d₁ := d₀.regionReadFromRom num
  let d₂ := d₁.regionReadFromRom (num + 1)
  let d₃ := d₂.regionReadFromRom (num + 2)
  have hwords : (d.powerUp stack devPnNum switchIo).fpga =
      d₃.fpga ++ initFpgaSys (d.powerUp stack devPnNum switchIo).nios.sysPara := rfl
  refine ⟨[d₀.regionSend num, d₁.regionSend (num + 1), d₂.regionSend (num + 2)], fun _ => rfl, ?_⟩
  rw [hwords, regionReadFromRom_fpga, regionReadFromRom_fpga, regionReadFromRom_fpga]
  simp only [List.flatMap_cons, List.flatMap_nil, List.append_nil, List.append_assoc]
  rfl

end Device

/-- The words for the FPGA behind a power up are whole packets. -/
theorem Firmware.boot_whole {φ : Type} (eeprom : Eeprom) (flash : φ) (stack : ℕ → Byte)
    (buf devPnNum : Bytes) (port : Byte) :
    ∃ regions : List CommandLink.Send,
      Stream.Whole (Firmware.boot eeprom flash stack buf devPnNum port).dev.fpga
        (regions.map CommandLink.Send.stream ++ CommandLink.initPackets
          (Firmware.boot eeprom flash stack buf devPnNum port).dev.nios.sysPara) := by
  obtain ⟨-, regions, -, hwords⟩ :=
    (Device.initial eeprom flash stack).powerUp_spec buf devPnNum (rdSwitchIoValue port)
  refine ⟨regions, ?_⟩
  show Stream.Whole ((Device.initial eeprom flash stack).powerUp buf devPnNum
    (rdSwitchIoValue port)).fpga _
  rw [hwords]
  exact (CommandLink.whole_sends _).append (CommandLink.whole_initFpgaSys _)

theorem param_behind_powerUp {φ : Type} {d : Device φ} (hfpga : d.fpga = []) (stack devPnNum : Bytes)
    (switchIo : Byte) {s : CommandModule.State} (hwaiting : CommandLink.Waiting s)
    {bus : List (Clocked.Bus Word)}
    (hbus : Clocked.Spaced false (d.powerUp stack devPnNum switchIo).fpga bus)
    (p : CommandModule.Param) :
    (CommandModule.run s bus).param p =
      (CommandLink.dataFor p.command (CommandLink.initSends
        (d.powerUp stack devPnNum switchIo).nios.sysPara)).foldl p.decode (s.param p) := by
  obtain ⟨-, regions, hregions, hwords⟩ := d.powerUp_spec stack devPnNum switchIo
  rw [hwords, hfpga, List.nil_append, CommandLink.initFpgaSys_eq, ← List.append_assoc,
    ← List.flatMap_append] at hbus
  rw [CommandLink.param_behind_presdo hwaiting hbus p, CommandLink.dataFor, List.flatMap_append,
    ← CommandLink.dataFor, ← CommandLink.dataFor, hregions, List.nil_append]

theorem param_behind_boot {φ : Type} {eeprom : Eeprom} {flash : φ} {stack : ℕ → Byte}
    {buf devPnNum : Bytes} {port : Byte} {s : CommandModule.State}
    (hwaiting : CommandLink.Waiting s) {bus : List (Clocked.Bus Word)}
    (hbus : Clocked.Spaced false (Firmware.boot eeprom flash stack buf devPnNum port).dev.fpga bus)
    (p : CommandModule.Param) :
    (CommandModule.run s bus).param p =
      (CommandLink.dataFor p.command (CommandLink.initSends
        (Firmware.boot eeprom flash stack buf devPnNum port).dev.nios.sysPara)).foldl p.decode
          (s.param p) :=
  param_behind_powerUp (d := Device.initial eeprom flash stack) rfl buf devPnNum
    (rdSwitchIoValue port) hwaiting hbus p

theorem CommandLink.dataFor_initSends (para : SysPara) {command : BitVec 16}
    (hcommand : command ≠ Device.uploadEn) :
    dataFor command (initSends para) =
      ((initCalls.filter fun call => call.1.command = command).map Prod.snd).map para.word := by
  have hcalls : ∀ calls : List (Setting × SysWord),
      dataFor command (calls.map fun (m, member) => .setLaserParamter m.command (para.word member)) =
        ((calls.filter fun call => call.1.command = command).map Prod.snd).map para.word := by
    intro calls
    induction calls with
    | nil => rfl
    | cons call calls ih =>
        obtain ⟨m, member⟩ := call
        rw [List.map_cons, dataFor, List.flatMap_cons, ← dataFor, ih]
        dsimp only
        by_cases hcall : m.command = command
        · rw [if_pos hcall, List.filter_cons_of_pos (by simpa using hcall)]
          rfl
        · rw [if_neg hcall, List.filter_cons_of_neg (by simpa using hcall)]
          rfl
  rw [initSends, dataFor, List.flatMap_cons, ← dataFor, hcalls]
  exact congrArg (· ++ _) (if_neg (Ne.symm hcommand))

namespace Setting

theorem command_injective {m m' : Setting} (h : m.command = m'.command) : m = m' := by
  have hfind := m.find_command
  rw [h, m'.find_command] at hfind
  exact (Option.some.inj hfind).symm

theorem command_ne_uploadEn (m : Setting) : m.command ≠ Device.uploadEn := by
  cases m <;> decide

theorem exists_register {p : CommandModule.Param} (hp : p ≠ .uploadEn) :
    ∃ m ∈ Setting.all, m.register = some p := by
  cases p <;> first | exact absurd rfl hp | decide

theorem register_of_command {m : Setting} {p : CommandModule.Param} (h : p.command = m.command) :
    m.register = some p := by
  have hp : p ≠ .uploadEn := by
    rintro rfl
    exact m.command_ne_uploadEn h.symm
  obtain ⟨m', -, hm'⟩ := exists_register hp
  rw [← command_injective ((m'.register_command hm').symm.trans h)]
  exact hm'

/-- The member that is saved for a register. Of the two behind `APD_VOL_SETTING` it is the base
voltage, which `init_fpga_sys` sends last. -/
def kept (m : Setting) : SysWord := m.member 0

/-- The commands that `init_fpga_sys` does not send. -/
def unsent : List Setting := [validNumThreshold, dustAlarmThreshold]

theorem calls_of_unsent {m : Setting} (hm : m ∈ unsent) :
    (initCalls.filter fun call => call.1.command = m.command) = [] := by
  rcases List.mem_pair.mp hm with rfl | rfl <;> decide

theorem calls_of_sent {m : Setting} (hm : m ∉ unsent) {p : CommandModule.Param}
    (hp : m.register = some p) :
    ∃ front, (initCalls.filter fun call => call.1.command = m.command).map Prod.snd =
      front ++ [m.kept] ∧ (front = [] ∨ m = apdVolSetting) := by
  cases m
  case apdVolSetting => exact ⟨[.signalThresold], by decide, Or.inr rfl⟩
  all_goals first
    | exact absurd (by decide) hm
    | exact ⟨[], by decide, Or.inl rfl⟩
    | cases hp

end Setting

/-- What must hold of saved parameters for all registers to come back. -/
structure SysPara.Restorable (para : SysPara) : Prop where
  validNum : para.word .validNumThreshold = 8
  dustAlarm : para.word .dustAlarmThreshold = 35
  speed : 8 ≤ (para.word .motorExpectSpeed).toNat ∧ (para.word .motorExpectSpeed).toNat ≤ 15
  fits : ∀ m : Setting, m ∉ Setting.switches → ∀ p, m.register = some p →
    (para.word m.kept).toNat < 2 ^ p.width

namespace Setting

/-- A register other than a switch and `motor_speed` takes every word, up to its width. -/
theorem decode_plain {m : Setting} {p : CommandModule.Param} (hp : m.register = some p)
    (hswitch : m ∉ switches) (hspeed : m ≠ motorSpeed) (old : BitVec p.width) (w : Word) :
    p.decode old w = w.setWidth p.width := by
  cases m
  all_goals first
    | exact absurd (by decide) hswitch
    | exact absurd rfl hspeed
    | cases hp
  all_goals rfl

theorem toNat_decode_speed (old : BitVec CommandModule.Param.motorSpeed.width) (w : Word) :
    (CommandModule.Param.motorSpeed.decode old w).toNat =
      if 8 ≤ w.toNat ∧ w.toNat ≤ 15 then w.toNat else old.toNat := by
  by_cases hrange : 8 ≤ w.toNat ∧ w.toNat ≤ 15
  · have hdecode : CommandModule.Param.motorSpeed.decode old w =
        w.setWidth CommandModule.Param.motorSpeed.width := if_pos hrange
    have hwidth : 2 ^ CommandModule.Param.motorSpeed.width = 256 := rfl
    rw [if_pos hrange, hdecode, BitVec.toNat_setWidth, hwidth]
    exact Nat.mod_eq_of_lt (by omega)
  · rw [if_neg hrange, show CommandModule.Param.motorSpeed.decode old w = old from if_neg hrange]

/-- The words that `init_fpga_sys` sends for a command. -/
def restored (m : Setting) (para : SysPara) : List Word :=
  ((initCalls.filter fun call => call.1.command = m.command).map Prod.snd).map para.word

/-- **One register.** What the words of `init_fpga_sys` make of a register out of reset. -/
theorem restored_iff {m : Setting} {p : CommandModule.Param} (hp : m.register = some p)
    (hswitch : m ∉ switches) (para : SysPara) :
    ((m.restored para).foldl p.decode p.reset).toNat = (para.word m.kept).toNat ↔
      if m ∈ unsent then (para.word m.kept).toNat = p.reset.toNat
      else (para.word m.kept).toNat < 2 ^ p.width ∧
        (m = motorSpeed →
          8 ≤ (para.word m.kept).toNat ∧ (para.word m.kept).toNat ≤ 15) := by
  by_cases hunsent : m ∈ unsent
  · rw [if_pos hunsent, restored, calls_of_unsent hunsent]
    exact eq_comm
  · rw [if_neg hunsent]
    obtain ⟨front, hcalls, hfront⟩ := calls_of_sent hunsent hp
    rw [restored, hcalls, List.map_append, List.foldl_append]
    show (p.decode _ (para.word m.kept)).toNat = _ ↔ _
    by_cases hspeed : m = motorSpeed
    · subst hspeed
      obtain rfl : front = [] := hfront.resolve_right (by decide)
      cases hp
      rw [show List.foldl _ _ _ = CommandModule.Param.motorSpeed.reset from rfl, toNat_decode_speed]
      have hwidth : 2 ^ CommandModule.Param.motorSpeed.width = 256 := rfl
      have hreset : CommandModule.Param.motorSpeed.reset.toNat = 15 := rfl
      rw [hwidth, hreset]
      split_ifs with hrange
      · simp only [true_iff]
        exact ⟨by omega, fun _ => hrange⟩
      · constructor
        · intro heq
          exact absurd ⟨by omega, by omega⟩ hrange
        · rintro ⟨-, hspeed⟩
          exact absurd (hspeed rfl) hrange
    · rw [decode_plain hp hswitch hspeed, BitVec.toNat_setWidth]
      constructor
      · intro heq
        refine ⟨?_, fun h => absurd h hspeed⟩
        rw [← heq]
        exact Nat.mod_lt _ (Nat.two_pow_pos _)
      · rintro ⟨hfits, -⟩
        exact Nat.mod_eq_of_lt hfits

/-- **All registers.** -/
theorem all_restored_iff (para : SysPara) :
    (∀ m, m ∉ switches → ∀ p, m.register = some p →
        ((m.restored para).foldl p.decode p.reset).toNat = (para.word m.kept).toNat) ↔
      para.Restorable := by
  constructor
  · intro hall
    have hone := fun m p hp hswitch => (restored_iff (m := m) (p := p) hp hswitch para).mp
      (hall m hswitch p hp)
    have hvalid := hone validNumThreshold _ rfl (by decide)
    have hdust := hone dustAlarmThreshold _ rfl (by decide)
    have hspeed := hone motorSpeed _ rfl (by decide)
    rw [if_pos (by decide)] at hvalid hdust
    rw [if_neg (by decide)] at hspeed
    refine ⟨BitVec.eq_of_toNat_eq hvalid, BitVec.eq_of_toNat_eq hdust, hspeed.2 rfl, ?_⟩
    intro m hswitch p hp
    have hm := hone m p hp hswitch
    by_cases hunsent : m ∈ unsent
    · rw [if_pos hunsent] at hm
      rw [hm]
      exact p.reset.isLt
    · rw [if_neg hunsent] at hm
      exact hm.1
  · intro hpara m hswitch p hp
    rw [restored_iff hp hswitch]
    by_cases hunsent : m ∈ unsent
    · rw [if_pos hunsent]
      rcases List.mem_pair.mp hunsent with rfl | rfl <;> cases hp
      · show (para.word .validNumThreshold).toNat = 8
        rw [hpara.validNum]
        rfl
      · show (para.word .dustAlarmThreshold).toNat = 35
        rw [hpara.dustAlarm]
        rfl
    · rw [if_neg hunsent]
      refine ⟨hpara.fits m hswitch p hp, ?_⟩
      rintro rfl
      exact hpara.speed

end Setting

/-! ### Restarting -/

variable {φ : Type}

theorem readSysPara_switched (rom : Eeprom) (stack devPnNum : Bytes) (num : ℕ) (status : SysPara)
    (padding : Fin 3 → Byte) (h : status.word .laserEnable = enable) :
    (readSysPara rom stack devPnNum num status padding).1.word .laserEnable = enable := by
  induction num generalizing status with
  | zero => exact h
  | succ num ih =>
      unfold readSysPara
      extract_lets buf
      split_ifs
      · rfl
      · exact ih _ h

theorem Firmware.Reached.switched {board : Board φ} {f : Firmware φ} (h : f.Reached board) :
    f.dev.Switched := by
  obtain ⟨eeprom, flash, stack, buf, devPnNum, port, events, rfl⟩ := h
  refine Firmware.run_induction (P := fun f => f.dev.Switched) (Firmware.switched_on board) ?_ events
  exact Or.inl (readSysPara_switched eeprom buf devPnNum 5 SysPara.initial _ rfl)

theorem Device.serve_save (d : Device φ) (driver : FlashDriver φ) (socket : ℕ) {packet : Bytes}
    (hcommand : commandOf packet = Pc2Dev.pcSavaSysPara) :
    d.serve driver socket packet =
      { d.readHeader packet with
        eeprom := saveSysPara d.eeprom d.padding (d.readHeader packet).nios.sysPara } := by
  have hread : (d.readHeader packet).pc2nios.command = Pc2Dev.pcSavaSysPara := hcommand
  unfold serve execute
  dsimp only
  rw [if_neg (by rw [hcommand]; decide), hread]
  rfl

theorem Setting.restored_congr {m : Setting} (hswitch : m ∉ switches) {para para' : SysPara}
    (hsame : ∀ member, member ∉ overridden → para.word member = para'.word member) :
    m.restored para = m.restored para' := by
  have hmembers : ∀ member ∈ (initCalls.filter fun call => call.1.command = m.command).map Prod.snd,
      member ∉ overridden := by
    cases m <;> first | exact absurd (by decide) hswitch | decide
  exact List.map_congr_left fun member hmember => hsame member (hmembers member hmember)

/-- **A restart.** Behind `PC_SAVA_SYS_PARA` and a restart the registers hold what was saved exactly
when the saved parameters are restorable. -/
theorem restart_keeps_iff {board : Board φ} {f : Firmware φ} (hreached : f.Reached board)
    (socket : ℕ) {packet : Bytes} (hsave : commandOf packet = Pc2Dev.pcSavaSysPara) (flash : φ)
    (stack : ℕ → Byte) (buf devPnNum : Bytes) (port : Byte) {s : CommandModule.State}
    (hwaiting : CommandLink.Waiting s) (hreset : s.param = CommandModule.Param.reset)
    {bus : List (Clocked.Bus Word)}
    (hbus : Clocked.Spaced false (Firmware.boot (f.dev.serve board.driver socket packet).eeprom flash
      stack buf devPnNum port).dev.fpga bus) :
    (∀ (m : Setting) (p : CommandModule.Param), m ∉ Setting.switches → p.command = m.command →
        ((CommandModule.run s bus).param p).toNat =
          ((f.dev.serve board.driver socket packet).nios.sysPara.word m.kept).toNat) ↔
      (f.dev.serve board.driver socket packet).nios.sysPara.Restorable := by
  have hrom : (f.dev.serve board.driver socket packet).eeprom = saveSysPara f.dev.eeprom f.dev.padding
      (f.dev.serve board.driver socket packet).nios.sysPara := by
    rw [f.dev.serve_save board.driver socket hsave]
  have hswitch := hreached.switched.serve board.driver socket packet
  generalize f.dev.serve board.driver socket packet = saved at hrom hswitch hbus ⊢
  have hstored : ∀ i < sizeofSysPara, saved.eeprom (sysParaByteAddr i) =
      literal (saved.nios.sysPara.bytes f.dev.padding) i := by
    intro i hi
    rw [hrom]
    exact saveSysPara_get _ _ _ hi
  let start : Device φ := Device.initial saved.eeprom flash stack
  let loaded : SysPara := (start.powerUp buf devPnNum (rdSwitchIoValue port)).nios.sysPara
  have hloaded : ∀ member, member ∉ overridden → loaded.word member = saved.nios.sysPara.word member := by
    intro member hmember
    exact readSysPara_saved hstored hswitch buf devPnNum 4 hmember
  have hvalue : ∀ (m : Setting) (p : CommandModule.Param), m ∉ Setting.switches →
      p.command = m.command →
      (CommandModule.run s bus).param p =
        (m.restored saved.nios.sysPara).foldl p.decode p.reset := by
    intro m p hm hcommand
    rw [param_behind_boot hwaiting hbus p, hreset, hcommand,
      CommandLink.dataFor_initSends _ m.command_ne_uploadEn]
    exact congrArg (List.foldl p.decode p.reset) (Setting.restored_congr hm hloaded)
  rw [← Setting.all_restored_iff]
  constructor
  · intro hall m hm p hp
    have hcommand := m.register_command hp
    rw [← hvalue m p hm hcommand]
    exact hall m p hm hcommand
  · intro hall m p hm hcommand
    rw [hvalue m p hm hcommand]
    exact hall m hm p (Setting.register_of_command hcommand)

/-! ### The threshold for the number of samples -/

/-- `VALID_NUM_THRESHOLD` with a value, in the buffer of the socket. -/
def validNumPacket (value : Word) : Memory := fun a => settingPacket .validNumThreshold value a.toNat

/-- The firmware with a cleared EEPROM. -/
def clearedBoot : Firmware (Word → Byte) :=
  Firmware.boot (fun _ => 0) (fun _ => 0) (fun _ => 0) (fun _ => 0) (fun _ => 0) 0

/-- The first socket delivers the packet. -/
def validNumSet (value : Word) : Firmware (Word → Byte) :=
  clearedBoot.run sRI1Board
    [.main ⟨.established (validNumPacket value) 12, [], 0⟩, .main ⟨.other, [], 0⟩]

instance : ∀ place : Place, Decidable (place = .top)
  | .tim561Run i => decidable_of_iff (i.val = 0) (by rw [Place.top, Place.tim561Run.injEq, Fin.ext_iff]; rfl)
  | .parsing .. | .receive | .publish | .signalAlarms | .readIo | .compareIo | .raiseFlag
  | .takeValue | .keepIo | .reportPowerUp | .testFlag | .clearFlag | .load _ | .reportIo => isFalse nofun

/-- `PC_SAVA_SYS_PARA`. -/
def saveParaPacket : Bytes := literal [0x12, 0x34, 0x40, 0x07, 0, 0, 0, 0, 0, 0, 0, 0]

theorem Firmware.run_packet (board : Board φ) {f : Firmware φ} (hplace : f.place = .top) (mem : Memory)
    {len : BitVec 16} (hlen : len ≠ 0) (input : Input) :
    f.run board [.main ⟨.established mem len, [], 0⟩, .main input] =
      { f with place := .parsing 0 mem 0 (len.setWidth 32) }.parse board 0 mem 0 (len.setWidth 32) := by
  have hfirst : f.on board (.main ⟨.established mem len, [], 0⟩) =
      { f with place := .parsing 0 mem 0 (len.setWidth 32) } := by
    obtain ⟨dev, place, isTcpEstablished, isPowerUp, cnt30ms⟩ := f
    obtain rfl : place = .top := hplace
    show Firmware.lookAt _ 0 (.established mem len) = _
    have hnonzero : ¬ len = 0 := hlen
    simp only [Firmware.lookAt, if_neg hnonzero]
    rfl
  show (f.on board _).on board (.main input) = _
  rw [hfirst]
  rfl

theorem Firmware.run_packet_dev (board : Board φ) {f : Firmware φ} (hplace : f.place = .top)
    {mem : Memory} {len : BitVec 16} (hlen : len ≠ 0) (hcustom : mem.at 0 0 ≠ 0x02)
    (hserved : refused (mem.at 0) = false) (input : Input) :
    (f.run board [.main ⟨.established mem len, [], 0⟩, .main input]).dev =
      f.dev.serve board.driver 0 (mem.at 0) := by
  have hrunning : (⟨f.dev, 0, len.setWidth 32, false⟩ : Call φ).running = true := by
    have hpos : len.setWidth 32 ≠ (0 : Word) := by
      intro hzero
      refine hlen (BitVec.eq_of_toNat_eq ?_)
      have hval := congrArg BitVec.toNat hzero
      rw [BitVec.toNat_setWidth, Nat.mod_eq_of_lt (by have := len.isLt; omega)] at hval
      exact hval
    simpa [Call.running] using hpos
  rw [Firmware.run_packet board hplace mem hlen input, Firmware.parse_dev]
  exact congrArg Call.dev (Call.turn_served board (Firmware.socket 0) mem hrunning hcustom hserved)

theorem validNumSet_dev (value : Word) :
    (validNumSet value).dev =
      clearedBoot.dev.serve flashOfBytes 0 ((validNumPacket value).at 0) := by
  refine Firmware.run_packet_dev sRI1Board ?_ (by decide) ?_ ?_ _
  · rfl
  · show (0x12 : Byte) ≠ 0x02
    decide
  · rfl

/-- A cleared EEPROM leaves the members as the program image gives them. -/
theorem readSysPara_cleared (num : ℕ) (status : SysPara) (padding : Fin 3 → Byte) {m : SysWord}
    (hm : m ≠ .dustThreshold) :
    (readSysPara (fun _ => 0) (fun _ => 0) (fun _ => 0) num status padding).1.word m =
      status.word m := by
  induction num generalizing status with
  | zero => rfl
  | succ num ih =>
      have hrefused : validSysPara (memcpy (fun _ => 0) 0
          ((List.range sizeofSysPara).map fun _ => 0)) = false := by decide
      rw [readSysPara, show eepromSequentialRead (fun _ => 0) sysParaAddr sizeofSysPara =
        some ((List.range sizeofSysPara).map fun _ => 0) from rfl]
      dsimp only
      rw [hrefused, if_neg Bool.false_ne_true, ih, SysPara.set_of_ne _ _ hm]

theorem clearedBoot_word {m : SysWord} (hm : m ≠ .dustThreshold) :
    clearedBoot.dev.nios.sysPara.word m = SysWord.initial m :=
  readSysPara_cleared 5 SysPara.initial (fun _ => 0) hm

/-- The device behind the packet and `PC_SAVA_SYS_PARA`. -/
def validNumSaved (value : Word) : Device (Word → Byte) :=
  (validNumSet value).dev.serve sRI1Board.driver 0 saveParaPacket

theorem saved_word (value : Word) (hvalue : paraOf ((validNumPacket value).at 0) = value)
    (haccepts : Setting.validNumThreshold.accepts value = true) {m : SysWord}
    (hdust : m ≠ .dustThreshold) (hcount : m ≠ .pcCommandValue) :
    (validNumSaved value).nios.sysPara.word m =
      if m = .validNumThreshold then value else SysWord.initial m := by
  rw [validNumSaved, Device.serve_save _ _ _ (by decide)]
  show (SysPara.set _ _ _).word m = _
  rw [SysPara.set_of_ne _ _ hcount, validNumSet_dev, Device.serve_setting _ _ _ _
    (by rfl : _ = Setting.validNumThreshold.command.setWidth 32), hvalue, Device.change, if_pos haccepts]
  show (SysPara.set (SysPara.set _ _ _) _ _).word m = _
  split_ifs with hm
  · subst hm
    exact SysPara.set_self _ _ _
  · have hother : m ≠ Setting.validNumThreshold.member value := hm
    rw [SysPara.set_of_ne _ _ hother]
    exact (SysPara.set_of_ne _ _ hcount).trans (clearedBoot_word hdust)

theorem validNumSet_reached (value : Word) : (validNumSet value).Reached sRI1Board :=
  ⟨fun _ => 0, fun _ => 0, fun _ => 0, fun _ => 0, fun _ => 0, 0, _, rfl⟩

theorem awake_param : CommandLink.awake.param = CommandModule.Param.reset := rfl

/-- The firmware behind the restart. -/
def validNumRestarted (value : Word) : Firmware (Word → Byte) :=
  Firmware.boot (validNumSaved value).eeprom (fun _ => 0) (fun _ => 0) (fun _ => 0) (fun _ => 0) 0

/-- Its words for the FPGA. -/
def restartBus (value : Word) : List (Clocked.Bus Word) :=
  Clocked.tight 0 (validNumRestarted value).dev.fpga

theorem restartBus_spaced (value : Word) :
    Clocked.Spaced false (Firmware.boot ((validNumSet value).dev.serve sRI1Board.driver 0
      saveParaPacket).eeprom (fun _ : Word => (0 : Byte)) (fun _ => 0) (fun _ => 0) (fun _ => 0) 0).dev.fpga
      (restartBus value) := Clocked.spaced_tight 0 _

theorem validNum_reset (value : Word) :
    (CommandModule.run CommandLink.awake (restartBus value)).param .validNumThreshold = 8 := by
  have hcalls := Setting.calls_of_unsent (m := .validNumThreshold) (by decide)
  rw [param_behind_boot CommandLink.waiting_awake (restartBus_spaced value),
    CommandLink.dataFor_initSends _ (by decide)]
  show ((((initCalls.filter fun call => call.1.command = Setting.validNumThreshold.command).map
    Prod.snd).map _).foldl _ _) = _
  rw [hcalls]
  rfl

/-- The reset value of the register is a value that comes back. -/
theorem restart_keeps_8 :
    (validNumSaved 8).nios.sysPara.Restorable ∧
      ∀ (m : Setting) (p : CommandModule.Param), m ∉ Setting.switches → p.command = m.command →
        ((CommandModule.run CommandLink.awake (restartBus 8)).param p).toNat =
          ((validNumSaved 8).nios.sysPara.word m.kept).toNat := by
  have hword : ∀ m : SysWord, m ≠ .dustThreshold → m ≠ .pcCommandValue →
      (validNumSaved 8).nios.sysPara.word m =
        if m = .validNumThreshold then 8 else SysWord.initial m :=
    fun m => saved_word 8 (by decide) (by decide)
  have hrestorable : (validNumSaved 8).nios.sysPara.Restorable := by
    refine ⟨?_, ?_, ?_, ?_⟩
    · exact (hword _ (by decide) (by decide)).trans rfl
    · exact (hword _ (by decide) (by decide)).trans rfl
    · have hspeed := hword .motorExpectSpeed (by decide) (by decide)
      refine ⟨hspeed ▸ ?_, hspeed ▸ ?_⟩ <;> decide
    · intro m hm p hp
      have hkept : m.kept ≠ .dustThreshold ∧ m.kept ≠ .pcCommandValue := by
        cases m <;> decide
      refine (congrArg BitVec.toNat (hword _ hkept.1 hkept.2)).trans_lt ?_
      cases m <;> first | exact absurd (by decide) hm | cases hp <;> decide
  have hsave : commandOf saveParaPacket = Pc2Dev.pcSavaSysPara := by decide
  generalize (8 : Word) = value at hrestorable ⊢
  exact ⟨hrestorable, (restart_keeps_iff (validNumSet_reached value) 0 hsave (fun _ => 0) (fun _ => 0)
    (fun _ => 0) (fun _ => 0) 0 CommandLink.waiting_awake awake_param (restartBus_spaced value)).mpr
    hrestorable⟩

/-- Every other value of `VALID_NUM_THRESHOLD` is lost. -/
theorem restart_loses_10 :
    ¬ ∀ (m : Setting) (p : CommandModule.Param), m ∉ Setting.switches → p.command = m.command →
      ((CommandModule.run CommandLink.awake (restartBus 10)).param p).toNat =
        ((validNumSaved 10).nios.sysPara.word m.kept).toNat := by
  intro hall
  have hfield : (validNumSaved 10).nios.sysPara.word Setting.validNumThreshold.kept = 10 :=
    (saved_word 10 (by decide) (by decide) (by decide) (by decide)).trans rfl
  have hregister := hall .validNumThreshold .validNumThreshold (by decide) rfl
  rw [hfield, validNum_reset] at hregister
  exact absurd hregister (by decide)

end SingleScan
