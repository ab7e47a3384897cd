import SingleScan.Lib.Run
import SingleScan.Proof.Region
import SingleScan.Proof.Startup
import SingleScan.Proof.Stream

/-!
# The active group of regions

The three layers that the FPGA got last, against the group of the EEPROM that `change_region_value`
names, in every interleaving of `main` with the timer.
-/

namespace SingleScan

open CommandLink CommandModule Pc2Dev

variable {φ : Type}

/-! ### The tables in the EEPROM -/

/-- The space of a layer in a group. -/
def groupSpace (value : Byte) (layer : Layer) : Byte := value * 3 + BitVec.ofNat 8 layer

/-- The boundaries in a space. -/
def storedTable (rom : Eeprom) (which : Byte) : BoundaryTable :=
  bufferOfBytes ((List.range (targetNumber * 2)).map fun k => rom (regionByteAddr which k))

/-- The data words of the packet for a table. -/
def tableWords (table : BoundaryTable) : List Word := List.ofFn fun i => (table i).setWidth 32

theorem last_region (ps : List Stream.Packet) (table : BoundaryTable) (layer : Layer) :
    Stream.last (wrRegion layer) (ps ++ [(Send.regionSave2fpga table layer).stream]) =
      some (tableWords table) := by
  have hdata : (Send.regionSave2fpga table layer).stream.data = tableWords table := by
    simp only [Send.stream, Send.packet, tableWords]
  rw [← hdata]
  exact Stream.last_concat ps (Send.stream_low (.regionSave2fpga table layer))

theorem toNat_groupSpace {value : Byte} (hvalue : value.toNat ≤ 15) (layer : Layer) :
    (groupSpace value layer).toNat = value.toNat * 3 + layer := by
  have hlayer : layer.val < 3 := layer.isLt
  rw [groupSpace, BitVec.toNat_add, BitVec.toNat_mul, BitVec.toNat_ofNat]
  show (value.toNat * 3 % 2 ^ 8 + layer.val % 2 ^ 8) % 2 ^ 8 = _
  omega

theorem groupSpace_le {value : Byte} (hvalue : value.toNat ≤ 15) (layer : Layer) :
    (groupSpace value layer).toNat ≤ 47 := by
  have hlayer : layer.val < 3 := layer.isLt
  rw [toNat_groupSpace hvalue]
  omega

theorem groupSpace_wide {value : Byte} (hvalue : value.toNat ≤ 15) (layer : Layer) :
    value.setWidth 32 * 3 + BitVec.ofNat 32 layer = (groupSpace value layer).setWidth 32 := by
  have hlayer : layer.val < 3 := layer.isLt
  apply BitVec.eq_of_toNat_eq
  rw [BitVec.toNat_setWidth, toNat_groupSpace hvalue, BitVec.toNat_add, BitVec.toNat_mul,
    BitVec.toNat_setWidth, BitVec.toNat_ofNat]
  show (value.toNat % 2 ^ 32 * 3 % 2 ^ 32 + layer.val % 2 ^ 32) % 2 ^ 32 = _
  omega

theorem storedTable_congr {rom rom' : Eeprom} {which : Byte}
    (hsame : ∀ k < 1725, rom' (regionByteAddr which k) = rom (regionByteAddr which k)) :
    storedTable rom' which = storedTable rom which := by
  have hsize : targetNumber = 811 := rfl
  refine congrArg bufferOfBytes (List.map_congr_left ?_)
  intro k hk
  exact hsame k (by rw [List.mem_range] at hk; omega)

/-- The bytes of a region lie above everything else that is stored. -/
theorem regionByteAddr_ge {which : Byte} (hwhich : which.toNat ≤ 47) {k : ℕ} (hk : k < 1725) :
    4096 ≤ (regionByteAddr which k).toNat := by
  rw [toNat_regionByteAddr]
  omega

/-- Which spaces a region is written over: those whose indices differ by a multiple of 64. -/
theorem storedTable_save (rom : Eeprom) (region : Region) {which : Byte} (hwhich : which.toNat ≤ 47)
    (hother : region.wrWhich.toNat % 64 ≠ which.toNat) :
    storedTable (regionSave2eeprom rom region) which = storedTable rom which := by
  refine storedTable_congr ?_
  intro k hk
  have habove := regionByteAddr_ge hwhich hk
  refine regionSave2eeprom_of_ne rom region ?_ ?_
  · intro heq
    rw [heq] at habove
    exact absurd habove (by decide)
  · intro j hj heq
    have hval := congrArg BitVec.toNat heq
    rw [toNat_regionByteAddr, toNat_regionByteAddr] at hval
    omega

theorem storedTable_saveSysPara (rom : Eeprom) (padding : Fin 3 → Byte) (para : SysPara)
    {which : Byte} (hwhich : which.toNat ≤ 47) :
    storedTable (saveSysPara rom padding para) which = storedTable rom which := by
  have haddr : sysParaAddr.toNat = 1024 := rfl
  have hlength := para.length_bytes padding
  have hsize : sizeofSysPara = 308 := rfl
  refine storedTable_congr ?_
  intro k hk
  have habove := regionByteAddr_ge hwhich hk
  rw [saveSysPara, eepromWritePage_eq, Store.storeFrom_of_ne]
  · intro i hi heq
    have hval := congrArg BitVec.toNat heq
    rw [Nat.zero_add] at hval
    have hpara : (sysParaByteAddr i).toNat = 1024 + i := toNat_sysParaByteAddr (by omega)
    rw [show (sysParaAddr.setWidth 17 + BitVec.ofNat 17 i) = sysParaByteAddr i from rfl, hpara] at hval
    omega
  · rw [InPages, haddr, hlength]
    omega

/-! ### The layers in the FPGA -/

namespace Device

/-- The last packet for a layer carries the table of the group. -/
def Shows (d : Device φ) (layer : Layer) : Prop :=
  Stream.lastData (wrRegion layer) d.fpga =
    some (tableWords (storedTable d.eeprom (groupSpace d.alarmRegion.changeRegionValue layer)))

/-- The words for the FPGA are whole packets. -/
def Sound (d : Device φ) : Prop := ∃ ps, Stream.Whole d.fpga ps

/-- The switches and the regions in the EEPROM stay. -/
structure SameGroups (d d' : Device φ) : Prop where
  value : d'.alarmRegion.changeRegionValue = d.alarmRegion.changeRegionValue
  flag : d'.alarmRegion.changeRegionFlag = d.alarmRegion.changeRegionFlag
  last : d'.alarmRegion.lastIoValue = d.alarmRegion.lastIoValue
  tables : ∀ which : Byte, which.toNat ≤ 47 →
    storedTable d'.eeprom which = storedTable d.eeprom which

/-- The regions in the FPGA stay as well. -/
structure Steady (d d' : Device φ) : Prop extends SameGroups d d' where
  sent : Only (fun send => ∀ layer, send.command ≠ wrRegion layer) d d'

theorem SameGroups.of_eq {d d' : Device φ} (hregion : d'.alarmRegion = d.alarmRegion)
    (hrom : d'.eeprom = d.eeprom) : SameGroups d d' :=
  ⟨by rw [hregion], by rw [hregion], by rw [hregion], fun _ _ => by rw [hrom]⟩

theorem SameGroups.of_rom {d : Device φ} {rom : Eeprom}
    (htables : ∀ which : Byte, which.toNat ≤ 47 → storedTable rom which = storedTable d.eeprom which) :
    SameGroups d { d with eeprom := rom } := ⟨rfl, rfl, rfl, htables⟩

theorem SameGroups.trans {d d' d'' : Device φ} (h : SameGroups d d') (h' : SameGroups d' d'') :
    SameGroups d d'' :=
  ⟨h'.value.trans h.value, h'.flag.trans h.flag, h'.last.trans h.last,
    fun which hwhich => (h'.tables which hwhich).trans (h.tables which hwhich)⟩

theorem Steady.trans {d d' d'' : Device φ} (h : Steady d d') (h' : Steady d' d'') : Steady d d'' :=
  ⟨h.toSameGroups.trans h'.toSameGroups, h.sent.trans h'.sent⟩

theorem Steady.of_eq {d d' : Device φ} (hregion : d'.alarmRegion = d.alarmRegion)
    (hrom : d'.eeprom = d.eeprom) (hfpga : d'.fpga = d.fpga) : Steady d d' :=
  ⟨.of_eq hregion hrom, .none hfpga⟩

theorem Only.sound {kind : Send → Prop} {d d' : Device φ} (h : Only kind d d') (hsound : d.Sound) :
    d'.Sound := by
  obtain ⟨ps, hwhole⟩ := hsound
  obtain ⟨sends, hsends, -⟩ := h
  refine ⟨ps ++ sends.map Send.stream, ?_⟩
  rw [hsends]
  exact hwhole.append (whole_sends _)

/-- Packets for other commands leave the last packet for a layer. -/
theorem Only.lastData {kind : Send → Prop} {d d' : Device φ} (h : Only kind d d') (hsound : d.Sound)
    {command : BitVec 16} (hkind : ∀ send, kind send → send.command ≠ command) :
    Stream.lastData command d'.fpga = Stream.lastData command d.fpga := by
  obtain ⟨ps, hwhole⟩ := hsound
  obtain ⟨sends, hsends, hall⟩ := h
  have hmore : Stream.Whole d'.fpga (ps ++ sends.map Send.stream) := by
    rw [hsends]
    exact hwhole.append (whole_sends _)
  rw [hmore.lastData, hwhole.lastData, Stream.last_append_of_ne]
  intro q hq
  obtain ⟨send, hsend, rfl⟩ := List.mem_map.mp hq
  rw [Send.stream_low]
  exact hkind send (hall send hsend)

theorem Steady.shows {d d' : Device φ} (h : Steady d d') (hsound : d.Sound)
    (hvalue : d.alarmRegion.changeRegionValue.toNat ≤ 15) {layer : Layer} (hshows : d.Shows layer) :
    d'.Shows layer := by
  rw [Shows, h.sent.lastData hsound (fun send hsend => hsend layer), h.value,
    h.tables _ (groupSpace_le hvalue layer)]
  exact hshows

theorem regionSend_eq (d : Device φ) {which : Byte} (hwhich : which.toNat ≤ 47) {layer : Layer}
    (hlayer : which.toNat % 3 = layer) :
    d.regionSend (which.setWidth 32) = .regionSave2fpga (storedTable d.eeprom which) layer := by
  have hread : eepromSequentialRead d.eeprom (regionAddr which) (targetNumber * 2) =
      some ((List.range (targetNumber * 2)).map fun k => d.eeprom (regionByteAddr which k)) := by
    have hmax : at24c1024MaxAddr = 120000 := rfl
    rw [eepromSequentialRead, if_neg]
    · rfl
    · rw [toNat_regionAddr, hmax]
      omega
  have haddr : groupOffsetAddr + which.setWidth 32 * regionSpaceSize = regionAddr which := by
    rw [BitVec.mul_comm]
    rfl
  have hnum : (which.setWidth 32).toNat % 3 = layer := by
    rw [BitVec.toNat_setWidth, Nat.mod_eq_of_lt (Nat.lt_of_le_of_lt hwhich (by decide))]
    exact hlayer
  unfold regionSend Device.regionReadFromRom SingleScan.regionReadFromRom
  dsimp only
  rw [haddr, hread]
  exact congrArg _ (Fin.ext hnum)

theorem regionReadFromRom_region (d : Device φ) (num : Word) :
    (d.regionReadFromRom num).alarmRegion.changeRegionValue = d.alarmRegion.changeRegionValue ∧
      (d.regionReadFromRom num).alarmRegion.changeRegionFlag = d.alarmRegion.changeRegionFlag ∧
      (d.regionReadFromRom num).alarmRegion.lastIoValue = d.alarmRegion.lastIoValue ∧
      (d.regionReadFromRom num).eeprom = d.eeprom := by
  unfold regionReadFromRom SingleScan.regionReadFromRom
  dsimp only
  split <;> exact ⟨rfl, rfl, rfl, rfl⟩

theorem regionReadFromRom_sound {d : Device φ} (h : d.Sound) (num : Word) :
    (d.regionReadFromRom num).Sound := (regionReadFromRom_only d num).sound h

/-- **One load.** The layer gets the table of the group, the others keep theirs. -/
theorem regionReadFromRom_shows {d : Device φ} (hsound : d.Sound)
    (hvalue : d.alarmRegion.changeRegionValue.toNat ≤ 15) (layer : Layer) {num : Word}
    (hnum : num = d.alarmRegion.changeRegionValue.setWidth 32 * 3 + BitVec.ofNat 32 layer) :
    (d.regionReadFromRom num).Shows layer ∧
      ∀ other, d.Shows other → (d.regionReadFromRom num).Shows other := by
  have hspace := groupSpace_le hvalue layer
  rw [groupSpace_wide hvalue layer] at hnum
  subst hnum
  obtain ⟨hsame, -, -, hrom⟩ :=
    d.regionReadFromRom_region ((groupSpace d.alarmRegion.changeRegionValue layer).setWidth 32)
  have hturn : (groupSpace d.alarmRegion.changeRegionValue layer).toNat % 3 = layer := by
    have hlayer : layer.val < 3 := layer.isLt
    rw [toNat_groupSpace hvalue]
    omega
  have hsend := d.regionSend_eq hspace hturn
  have hloaded : (d.regionReadFromRom
      ((groupSpace d.alarmRegion.changeRegionValue layer).setWidth 32)).Shows layer := by
    obtain ⟨ps, hwhole⟩ := hsound
    have hsends := sends_regionReadFromRom d
      ((groupSpace d.alarmRegion.changeRegionValue layer).setWidth 32)
    rw [hsend] at hsends
    have hmore := hwhole.append (whole_sends [.regionSave2fpga
      (storedTable d.eeprom (groupSpace d.alarmRegion.changeRegionValue layer)) layer])
    rw [← hsends] at hmore
    rw [Shows, hmore.lastData, hsame, hrom]
    exact last_region ps _ layer
  refine ⟨hloaded, ?_⟩
  intro other hother
  by_cases hlayer : other = layer
  · rw [hlayer]
    exact hloaded
  · have honly : Only (fun send => send.command ≠ wrRegion other) d
        (d.regionReadFromRom ((groupSpace d.alarmRegion.changeRegionValue layer).setWidth 32)) := by
      refine Only.one (sends_regionReadFromRom d _) ?_
      rw [hsend]
      exact fun heq => hlayer (wrRegion_injective heq).symm
    rw [Shows, honly.lastData hsound (fun _ hsend => hsend), hsame, hrom]
    exact hother

/-! ### The packets -/

theorem Allowed.ne_wrRegion {command : Word} {send : Send} (h : Allowed command send)
    (hcommand : command ≠ pcSetAlarmRegion) (layer : Layer) : send.command ≠ wrRegion layer := by
  cases h with
  | @setting m _ _ =>
      show m.command ≠ wrRegion layer
      revert layer
      cases m <;> decide
  | upload =>
      show uploadEn ≠ wrRegion layer
      revert layer
      decide
  | answer =>
      show (0xc000 : BitVec 16) ≠ wrRegion layer
      revert layer
      decide
  | region hset => exact absurd hset hcommand

theorem Only.steady {command : Word} {d d' : Device φ} (h : Only (Allowed command) d d')
    (hcommand : command ≠ pcSetAlarmRegion) :
    Only (fun send => ∀ layer, send.command ≠ wrRegion layer) d d' := by
  obtain ⟨sends, hsends, hall⟩ := h
  exact ⟨sends, hsends, fun send hsend => (hall send hsend).ne_wrRegion hcommand⟩

theorem Keeps.steady {d d' : Device φ} (h : Keeps d d') : Steady d d' :=
  .of_eq h.alarmRegion h.eeprom h.fpga

theorem SameGroups.reply {d d' : Device φ} (h : SameGroups d d') (socket : ℕ) (command dataLen : Word) :
    SameGroups d (d'.reply socket command dataLen) :=
  h.trans (reply_keeps d' socket command dataLen).steady.toSameGroups

theorem Telegram.steady {d d' : Device φ} (h : Telegram d d') : Steady d d' :=
  ⟨.of_eq h.alarmRegion h.eeprom, (h.only 0).steady (by decide)⟩

theorem receive_steady (d : Device φ) (fifo : List Word) : Steady d (d.receive fifo) := by
  unfold receive
  dsimp only
  split_ifs <;> exact .of_eq rfl rfl rfl

theorem setting_steady (d : Device φ) (m : Setting) (data : Word) :
    Steady d (d.setLaserParamter m.command data) := by
  refine ⟨.of_eq rfl rfl, (Only.one (sends_setLaserParamter d _ _) (.setting rfl)).steady ?_⟩
  cases m <;> decide

theorem signalAlarms_steady (d : Device φ) : Steady d d.signalAlarms := by
  unfold signalAlarms
  dsimp only
  split_ifs
  · exact (setting_steady d .laserFreq _).trans (setting_steady _ .laserEnable _)
  · exact setting_steady d .laserFreq _
  · exact setting_steady d .laserFreq _
  · exact .of_eq rfl rfl rfl

variable (d : Device φ) (driver : FlashDriver φ) (socket : ℕ) (buf : Bytes)

theorem entered_steady : Steady d (d.entered buf) := by
  unfold entered
  split_ifs <;> exact ⟨⟨rfl, rfl, rfl, fun _ _ => rfl⟩, .none rfl⟩

/-- The handlers of the commands other than the two that change a group. -/
theorem execute_steady (para : Word) (hset : d.pc2nios.command ≠ pcSetAlarmRegion)
    (hload : d.pc2nios.command ≠ pcLoadRegionData) : Steady d (d.execute driver socket buf para) := by
  have honly := (d.execute_only driver socket buf para).steady hset
  have hcases := execute_cases
    (motive := fun command f => command ≠ pcSetAlarmRegion → command ≠ pcLoadRegionData →
      SameGroups d (f buf)) d driver socket para
  refine ⟨hcases (fun h => absurd rfl h) ?_ (fun _ h => absurd rfl h) ?_ ?_ ?_
    (fun _ _ => .of_eq rfl rfl) (fun _ _ => .of_eq rfl rfl) (fun _ _ => .of_eq rfl rfl)
    (fun _ _ => .of_eq rfl rfl) (fun _ _ => .of_eq rfl rfl) ?_ ?_ (fun _ _ => .of_eq rfl rfl) ?_ ?_
    hset hload, honly⟩
  · intro _ _
    unfold readAlarmRegion
    split_ifs
    · exact SameGroups.reply (.of_eq rfl rfl) _ _ _
    · exact .of_eq rfl rfl
  · intro _ _
    unfold reqRegionData
    refine SameGroups.reply ?_ _ _ _
    exact ⟨rfl, rfl, rfl, fun _ _ => rfl⟩
  · intro _ _
    unfold reqRadarPara
    have hreply := SameGroups.reply (.of_eq rfl rfl : SameGroups d d) socket niosUpRadarPara
      (BitVec.ofNat 32 sizeofSysPara)
    exact hreply.trans (.of_eq rfl rfl)
  · intro _ _
    exact SameGroups.of_rom fun _ hwhich => storedTable_saveSysPara _ _ _ hwhich
  · intro _ _
    unfold remoteUpdateWrite
    refine SameGroups.reply ?_ _ _ _
    exact .of_eq rfl rfl
  · intro _ _
    unfold remoteUpdateRead
    refine SameGroups.reply ?_ _ _ _
    exact .of_eq rfl rfl
  · intro command m _ _ _ _ _
    unfold change
    split_ifs <;> exact .of_eq rfl rfl
  · exact fun _ _ _ _ _ => .of_eq rfl rfl

theorem serve_steady (hset : commandOf buf ≠ pcSetAlarmRegion)
    (hload : commandOf buf ≠ pcLoadRegionData) : Steady d (d.serve driver socket buf) :=
  serve_induction d driver socket buf (d.entered_steady buf)
    ((d.entered_steady buf).trans ((d.entered buf).execute_steady driver socket buf _ hset hload))

theorem serve_refused (hrefused : refused buf = true) : Steady d (d.serve driver socket buf) := by
  rw [serve_eq, if_pos hrefused]
  exact d.entered_steady buf

variable {d buf}

theorem setAlarmRegion_shows (hsound : d.Sound)
    (hvalue : d.alarmRegion.changeRegionValue.toNat ≤ 15)
    (hselect : d.alarmRegion.select = d.alarmRegion.changeRegionValue.setWidth 32) (layer : Layer) :
    (d.setAlarmRegion buf).Shows layer := by
  unfold setAlarmRegion
  extract_lets rom d₁ num
  have hnum : num = d₁.alarmRegion.changeRegionValue.setWidth 32 * 3 := congrArg (· * 3) hselect
  have hsound₁ : d₁.Sound := hsound
  have hvalue₁ : d₁.alarmRegion.changeRegionValue.toNat ≤ 15 := hvalue
  have hregion₁ := d₁.regionReadFromRom_region (num + 0)
  have hregion₂ := (d₁.regionReadFromRom (num + 0)).regionReadFromRom_region (num + 1)
  have hnum₀ : num + 0 = d₁.alarmRegion.changeRegionValue.setWidth 32 * 3 + 0 :=
    congrArg (· + 0) hnum
  have hnum₁ : num + 1 = d₁.alarmRegion.changeRegionValue.setWidth 32 * 3 + 1 :=
    congrArg (· + 1) hnum
  have hnum₂ : num + 2 = d₁.alarmRegion.changeRegionValue.setWidth 32 * 3 + 2 :=
    congrArg (· + 2) hnum
  have hzero := regionReadFromRom_shows hsound₁ hvalue 0 hnum₀
  rw [← hregion₁.1] at hvalue₁ hnum₁
  have hone := regionReadFromRom_shows (regionReadFromRom_sound hsound₁ (num + 0)) hvalue₁ 1 hnum₁
  rw [← hregion₁.1, ← hregion₂.1] at hnum₂
  rw [← hregion₂.1] at hvalue₁
  have htwo := regionReadFromRom_shows
    (regionReadFromRom_sound (regionReadFromRom_sound hsound₁ (num + 0)) (num + 1)) hvalue₁ 2 hnum₂
  match layer with
  | 0 => exact htwo.2 0 (hone.2 0 hzero.1)
  | 1 => exact htwo.2 1 hone.1
  | 2 => exact htwo.1

theorem serve_accepted_set (hcommand : commandOf buf = pcSetAlarmRegion)
    (haccepted : refused buf = false) :
    d.serve driver socket buf = (d.entered buf).setAlarmRegion buf := by
  rw [serve_eq, if_neg (by rw [haccepted]; exact Bool.false_ne_true)]
  unfold execute
  exact if_pos hcommand

theorem setAlarmRegion_switches (d : Device φ) (buf : Bytes) :
    (d.setAlarmRegion buf).alarmRegion.changeRegionValue = d.alarmRegion.changeRegionValue ∧
      (d.setAlarmRegion buf).alarmRegion.changeRegionFlag = d.alarmRegion.changeRegionFlag ∧
      (d.setAlarmRegion buf).alarmRegion.lastIoValue = d.alarmRegion.lastIoValue := by
  unfold setAlarmRegion
  extract_lets rom d₁ num
  obtain ⟨hvalue₀, hflag₀, hlast₀, -⟩ := d₁.regionReadFromRom_region (num + 0)
  obtain ⟨hvalue₁, hflag₁, hlast₁, -⟩ :=
    (d₁.regionReadFromRom (num + 0)).regionReadFromRom_region (num + 1)
  obtain ⟨hvalue₂, hflag₂, hlast₂, -⟩ :=
    ((d₁.regionReadFromRom (num + 0)).regionReadFromRom (num + 1)).regionReadFromRom_region (num + 2)
  exact ⟨hvalue₂.trans (hvalue₁.trans hvalue₀), hflag₂.trans (hflag₁.trans hflag₀),
    hlast₂.trans (hlast₁.trans hlast₀)⟩

theorem powerUp_switches (d : Device φ) (stack devPnNum : Bytes) (switchIo : Byte) :
    (d.powerUp stack devPnNum switchIo).alarmRegion.changeRegionValue = switchIo ∧
      (d.powerUp stack devPnNum switchIo).alarmRegion.changeRegionFlag = 1 ∧
      (d.powerUp stack devPnNum switchIo).alarmRegion.lastIoValue = d.alarmRegion.lastIoValue := by
  let num : Word := switchIo.setWidth 32 * 3
  let d₀ : Device φ := { d with
    alarmRegion := { d.alarmRegion with changeRegionValue := switchIo, changeRegionFlag := 0x01 } }
  let d₁ := d₀.regionReadFromRom num
  let d₂ := d₁.regionReadFromRom (num + 1)
  have hregion : (d.powerUp stack devPnNum switchIo).alarmRegion =
      (d₂.regionReadFromRom (num + 2)).alarmRegion := by
    unfold powerUp
    rfl
  obtain ⟨hvalue₀, hflag₀, hlast₀, -⟩ := d₀.regionReadFromRom_region num
  obtain ⟨hvalue₁, hflag₁, hlast₁, -⟩ := d₁.regionReadFromRom_region (num + 1)
  obtain ⟨hvalue₂, hflag₂, hlast₂, -⟩ := d₂.regionReadFromRom_region (num + 2)
  rw [hregion]
  exact ⟨hvalue₂.trans (hvalue₁.trans hvalue₀), hflag₂.trans (hflag₁.trans hflag₀),
    hlast₂.trans (hlast₁.trans hlast₀)⟩

/-- `PC_LOAD_REGION_DATA` raises the flag for the group of the switches. -/
theorem loadRegionData_switches (d : Device φ) (buf : Bytes) :
    (d.loadRegionData buf).alarmRegion.changeRegionValue = d.alarmRegion.changeRegionValue ∧
      (d.loadRegionData buf).alarmRegion.lastIoValue = d.alarmRegion.lastIoValue ∧
      (d.loadRegionData buf).alarmRegion.changeRegionFlag =
        if d.alarmRegion.changeRegionValue = buf 8 / 3 then 1 else d.alarmRegion.changeRegionFlag := by
  unfold loadRegionData
  extract_lets old region d₁ d₂ d₃ saved
  have hregion : saved.alarmRegion = region := by
    dsimp only [saved]
    split_ifs <;> rfl
  have hvalue : saved.alarmRegion.changeRegionValue = d.alarmRegion.changeRegionValue := by
    rw [hregion]
  have hlast : saved.alarmRegion.lastIoValue = d.alarmRegion.lastIoValue := by
    rw [hregion]
  have hflag : saved.alarmRegion.changeRegionFlag = d.alarmRegion.changeRegionFlag := by
    rw [hregion]
  have hwhich : saved.alarmRegion.wrWhich = buf 8 := by
    rw [hregion]
  rw [hvalue, hwhich]
  split_ifs with hgroup
  · exact ⟨rfl, hlast, rfl⟩
  · exact ⟨hvalue, hlast, hflag⟩

theorem loadRegionData_tables (d : Device φ) (buf : Bytes) {which : Byte} (hwhich : which.toNat ≤ 47)
    (hother : (buf 8).toNat % 64 ≠ which.toNat) :
    storedTable (d.loadRegionData buf).eeprom which = storedTable d.eeprom which := by
  rw [loadRegionData_eeprom]
  exact storedTable_save _ _ hwhich hother

end Device

/-! ### The statements -/

/-- The layers that have been loaded when `main` stands at a statement: between the loads, those before
the next one. -/
def Place.Loaded : Place → Layer → Prop
  | .load next, layer => layer < next
  | _, _ => True

namespace Firmware

/-- The event hands no packet to its handler that changes a group behind the back of the flag:
`PC_SET_ALARM_REGION` selects the group of the switches, and a region that `PC_LOAD_REGION_DATA` writes
over that group, of which the EEPROM sees the index modulo 64, is one of that group. -/
def Agrees (f : Firmware φ) : Event → Prop
  | .main _ =>
    match f.place with
    | .parsing _ mem buf _ =>
      let region := f.dev.alarmRegion
      let packet := mem.at buf
      packet 0 ≠ 0x02 → region.changeRegionFlag ≠ 1 →
        (commandOf packet = pcSetAlarmRegion → refused packet = false →
          paraOf packet = region.changeRegionValue.setWidth 32) ∧
        (commandOf packet = pcLoadRegionData →
          (packet 8).toNat % 64 / 3 = region.changeRegionValue.toNat →
          region.changeRegionValue = packet 8 / 3)
    | _ => True
  | .timer _ => True

/-- Unless a change of the group is pending, the layers are those of the switches. -/
structure Consistent (f : Firmware φ) : Prop where
  sound : f.dev.Sound
  value : f.dev.alarmRegion.changeRegionValue.toNat ≤ 15
  last : ∀ i, (f.dev.alarmRegion.lastIoValue i).toNat ≤ 15
  taking : f.place = .takeValue → f.dev.alarmRegion.changeRegionFlag = 1
  shown : f.dev.alarmRegion.changeRegionFlag ≠ 1 → ∀ layer, f.place.Loaded layer →
    f.dev.Shows layer

theorem rdSwitchIoValue_le (data : Byte) : (rdSwitchIoValue data).toNat ≤ 15 := by
  rw [rdSwitchIoValue, BitVec.toNat_and]
  exact Nat.and_le_right

/-- A statement behind which nothing is different for the group. -/
theorem Consistent.steady {f f' : Firmware φ} (h : f.Consistent) (hsteady : f.dev.Steady f'.dev)
    (hloaded : ∀ layer, f.place.Loaded layer) (htaking : f'.place ≠ .takeValue) :
    f'.Consistent where
  sound := hsteady.sent.sound h.sound
  value := by
    rw [hsteady.value]
    exact h.value
  last := by
    rw [hsteady.last]
    exact h.last
  taking := fun hplace => absurd hplace htaking
  shown := by
    rw [hsteady.flag]
    intro hflag layer _
    exact hsteady.shows h.sound h.value (h.shown hflag layer (hloaded layer))

theorem Consistent.pending {f f' : Firmware φ} (h : f.Consistent) (hsound : f'.dev.Sound)
    (hvalue : f'.dev.alarmRegion.changeRegionValue = f.dev.alarmRegion.changeRegionValue)
    (hlast : f'.dev.alarmRegion.lastIoValue = f.dev.alarmRegion.lastIoValue)
    (hflag : f'.dev.alarmRegion.changeRegionFlag = 1) : f'.Consistent where
  sound := hsound
  value := by
    rw [hvalue]
    exact h.value
  last := by
    rw [hlast]
    exact h.last
  taking := fun _ => hflag
  shown := fun hother => absurd hflag hother

theorem Consistent.serve {f f' : Firmware φ} (h : f.Consistent) (board : Board φ) (socket : ℕ)
    (packet : Bytes) (hloaded : ∀ layer, f.place.Loaded layer) (htaking : f'.place ≠ .takeValue)
    (hdev : f'.dev = f.dev.serve board.driver socket packet)
    (hset : f.dev.alarmRegion.changeRegionFlag ≠ 1 → commandOf packet = pcSetAlarmRegion →
      refused packet = false → paraOf packet = f.dev.alarmRegion.changeRegionValue.setWidth 32)
    (hload : f.dev.alarmRegion.changeRegionFlag ≠ 1 → commandOf packet = pcLoadRegionData →
      (packet 8).toNat % 64 / 3 = f.dev.alarmRegion.changeRegionValue.toNat →
      f.dev.alarmRegion.changeRegionValue = packet 8 / 3) : f'.Consistent := by
  have hsound : f'.dev.Sound := by
    rw [hdev]
    exact (f.dev.serve_only board.driver socket packet).sound h.sound
  by_cases hcommand : commandOf packet = pcSetAlarmRegion
  · cases hrefused : refused packet with
    | true =>
        refine h.steady ?_ hloaded htaking
        rw [hdev]
        exact Device.serve_refused f.dev board.driver socket packet hrefused
    | false =>
        have hentered := f.dev.entered_steady packet
        have hselect : (f.dev.entered packet).alarmRegion.select = paraOf packet := by
          unfold Device.entered
          dsimp only
          rw [if_pos hcommand]
        rw [Device.serve_accepted_set board.driver socket hcommand hrefused] at hdev
        obtain ⟨hvalue, hflag, hlast⟩ := (f.dev.entered packet).setAlarmRegion_switches packet
        rw [← hdev] at hvalue hflag hlast
        refine ⟨hsound, ?_, ?_, fun hplace => absurd hplace htaking, ?_⟩
        · rw [hvalue, hentered.value]
          exact h.value
        · rw [hlast, hentered.last]
          exact h.last
        · rw [hflag, hentered.flag, hdev]
          intro hquiet layer _
          refine Device.setAlarmRegion_shows (hentered.sent.sound h.sound) ?_ ?_ layer
          · rw [hentered.value]
            exact h.value
          · rw [hselect, hentered.value]
            exact hset hquiet hcommand hrefused
  · by_cases hregion : commandOf packet = pcLoadRegionData
    · have honly := (f.dev.serve_only board.driver socket packet).steady hcommand
      have hserve := f.dev.serve_load board.driver socket packet hregion
      rw [← hdev] at honly hserve
      obtain ⟨hvalue, hlast, hflag⟩ := (f.dev.readHeader packet).loadRegionData_switches packet
      rw [← hserve] at hvalue hlast hflag
      by_cases hown : f.dev.alarmRegion.changeRegionValue = packet 8 / 3
      · exact h.pending hsound hvalue hlast (hflag.trans (if_pos hown))
      · refine ⟨hsound, hvalue ▸ h.value, hlast ▸ h.last, fun hplace => absurd hplace htaking, ?_⟩
        rw [hflag.trans (if_neg hown)]
        intro hquiet layer _
        have hspace := Device.loadRegionData_tables (f.dev.readHeader packet) packet
          (groupSpace_le h.value layer) (by
            have hlayer : layer.val < 3 := layer.isLt
            have hother : (packet 8).toNat % 64 / 3 ≠ f.dev.alarmRegion.changeRegionValue.toNat :=
              fun heq => hown (hload hquiet hregion heq)
            rw [toNat_groupSpace h.value]
            omega)
        rw [← hserve] at hspace
        rw [Device.Shows, honly.lastData h.sound fun _ hsend => hsend layer]
        have hshows := h.shown hquiet layer (hloaded layer)
        rw [Device.Shows] at hshows
        rw [hshows, hvalue]
        exact congrArg _ (congrArg _ hspace.symm)
    · refine h.steady ?_ hloaded htaking
      rw [hdev]
      exact f.dev.serve_steady board.driver socket packet hcommand hregion

/-- An assignment to the switches: the value moves only together with the flag. -/
theorem Consistent.setRegion {f f' : Firmware φ} (h : f.Consistent) (region : Region)
    (hdev : f'.dev = { f.dev with alarmRegion := region }) (hvalue : region.changeRegionValue.toNat ≤ 15)
    (hlast : ∀ i, (region.lastIoValue i).toNat ≤ 15)
    (htaking : f'.place = .takeValue → region.changeRegionFlag = 1)
    (hquiet : region.changeRegionFlag ≠ 1 → ∀ layer, f'.place.Loaded layer →
      region.changeRegionValue = f.dev.alarmRegion.changeRegionValue ∧
        f.dev.alarmRegion.changeRegionFlag ≠ 1 ∧ f.place.Loaded layer) : f'.Consistent := by
  refine ⟨?_, ?_, ?_, ?_, ?_⟩ <;> rw [hdev]
  · exact h.sound
  · exact hvalue
  · exact hlast
  · exact htaking
  · intro hflag layer hloaded
    obtain ⟨hsame, hflag', hloaded'⟩ := hquiet hflag layer hloaded
    have hshows := h.shown hflag' layer hloaded'
    rw [Device.Shows, ← hsame] at hshows
    exact hshows

theorem Consistent.timerIsr {f : Firmware φ} (h : f.Consistent) (port : Byte) :
    (f.timerIsr port).Consistent := by
  have hport := rdSwitchIoValue_le port
  unfold Firmware.timerIsr
  extract_lets value
  split_ifs with hcount
  · by_cases hmoved : value ≠ f.dev.alarmRegion.lastIoValue 1
    · refine h.setRegion { f.dev.alarmRegion with
          lastIoValue := fun _ => value, changeRegionFlag := 1, changeRegionValue := value }
        ?_ hport (fun _ => hport) (fun _ => rfl) fun hflag => absurd rfl hflag
      unfold Device.setRegion
      dsimp only
      rw [if_pos hmoved]
    · refine h.setRegion { f.dev.alarmRegion with lastIoValue := fun _ => value }
        ?_ h.value (fun _ => hport) h.taking fun hflag _ hloaded => ⟨rfl, hflag, hloaded⟩
      unfold Device.setRegion
      dsimp only
      rw [if_neg hmoved]
  · exact ⟨h.sound, h.value, h.last, h.taking, h.shown⟩

theorem leaveSocket_place (f : Firmware φ) (i : Fin 5) : (f.leaveSocket i).place ≠ .takeValue := by
  unfold leaveSocket
  dsimp only
  split_ifs <;> nofun

theorem lookAt_place (f : Firmware φ) (i : Fin 5) (status : SocketStatus) :
    (f.lookAt i status).place ≠ .takeValue := by
  cases status with
  | established mem len =>
      unfold lookAt
      dsimp only
      split_ifs
      · exact leaveSocket_place _ i
      · exact leaveSocket_place _ i
      · exact leaveSocket_place _ i
      · exact nofun
  | closed => exact leaveSocket_place _ i
  | other => exact leaveSocket_place _ i

theorem parse_place (f : Firmware φ) (board : Board φ) (i : Fin 5) (mem : Memory) (buf len : Word) :
    (f.parse board i mem buf len).place ≠ .takeValue := by
  unfold parse
  extract_lets call f'
  split_ifs
  · exact nofun
  · exact leaveSocket_place _ i

theorem Consistent.step {f : Firmware φ} (h : f.Consistent) (board : Board φ) (input : Input)
    (hagrees : f.Agrees (.main input)) : (f.step board input).Consistent := by
  unfold Firmware.step
  extract_lets region
  unfold Agrees at hagrees
  cases hplace : f.place with
  | tim561Run i =>
      have hloaded : ∀ layer, f.place.Loaded layer := by
        rw [hplace]
        exact fun _ => trivial
      rcases f.lookAt_dev i input.status with hdev | hdev
      · refine h.steady ?_ hloaded (f.lookAt_place i input.status)
        rw [hdev]
        exact .of_eq rfl rfl rfl
      · exact h.setRegion _ hdev h.value h.last (fun _ => rfl) fun hflag => absurd rfl hflag
  | parsing i mem buf len =>
      have hloaded : ∀ layer, f.place.Loaded layer := by
        rw [hplace]
        exact fun _ => trivial
      have htaking := f.parse_place board i mem buf len
      have hdev := parse_dev board f i mem buf len
      rcases Call.turn_cases board (socket i) mem ⟨f.dev, buf, len, false⟩ with
        hturn | hturn | ⟨-, hcustom, hturn⟩ <;> rw [hturn] at hdev
      · refine h.steady ?_ hloaded htaking
        rw [hdev]
        exact .of_eq rfl rfl rfl
      · refine h.steady ?_ hloaded htaking
        rw [hdev]
        exact (Device.sickProtocolProcess_telegram _ _ _ _ _).steady
      · rw [hplace] at hagrees
        exact h.serve board (socket i) (mem.at buf) hloaded htaking hdev
          (fun hquiet => (hagrees hcustom hquiet).1) (fun hquiet => (hagrees hcustom hquiet).2)
  | receive =>
      exact h.steady (f.dev.receive_steady _) (by rw [hplace]; exact fun _ => trivial) nofun
  | publish =>
      exact h.steady (.of_eq rfl rfl rfl) (by rw [hplace]; exact fun _ => trivial) nofun
  | signalAlarms =>
      exact h.steady f.dev.signalAlarms_steady (by rw [hplace]; exact fun _ => trivial) nofun
  | readIo =>
      refine h.setRegion _ rfl h.value ?_ nofun fun hflag _ _ => ⟨rfl, hflag, by rw [hplace]; trivial⟩
      intro i
      match i with
      | 0 => exact rdSwitchIoValue_le input.port
      | 1 => exact h.last 1
  | compareIo =>
      refine h.steady (.of_eq rfl rfl rfl) (by rw [hplace]; exact fun _ => trivial) ?_
      dsimp only
      split_ifs <;> nofun
  | raiseFlag =>
      refine h.setRegion _ rfl h.value h.last (fun _ => rfl) fun hflag => absurd rfl hflag
  | takeValue =>
      have hflag := h.taking hplace
      refine h.setRegion _ rfl (h.last 0) h.last nofun fun hother => absurd hflag hother
  | keepIo =>
      refine h.setRegion _ rfl h.value ?_ nofun fun hflag _ _ => ⟨rfl, hflag, by rw [hplace]; trivial⟩
      intro i
      match i with
      | 0 => exact h.last 0
      | 1 => exact h.last 0
  | reportPowerUp =>
      have hloaded : ∀ layer, f.place.Loaded layer := by
        rw [hplace]
        exact fun _ => trivial
      dsimp only
      split_ifs
      · exact h.steady f.dev.reportIoValue_keeps.steady hloaded nofun
      · exact h.steady (.of_eq rfl rfl rfl) hloaded nofun
  | testFlag =>
      refine h.steady (.of_eq rfl rfl rfl) (by rw [hplace]; exact fun _ => trivial) ?_
      dsimp only
      split_ifs <;> nofun
  | clearFlag =>
      refine h.setRegion _ rfl h.value h.last nofun fun _ layer hloaded => ?_
      exact absurd hloaded (Nat.not_lt_zero _)
  | load layer =>
      dsimp only [region]
      generalize hnum : f.dev.alarmRegion.changeRegionValue.setWidth 32 * 3 + BitVec.ofNat 32 layer = num
      obtain ⟨hvalue, hflag, hlast, -⟩ := f.dev.regionReadFromRom_region num
      obtain ⟨hthis, hother⟩ := Device.regionReadFromRom_shows h.sound h.value layer hnum.symm
      refine ⟨Device.regionReadFromRom_sound h.sound num, hvalue ▸ h.value, hlast ▸ h.last, ?_, ?_⟩
      · dsimp only
        split_ifs <;> nofun
      · dsimp only
        rw [hflag]
        intro hquiet other hloaded
        by_cases heq : other = layer
        · rw [heq]
          exact hthis
        · refine hother other (h.shown hquiet other ?_)
          rw [hplace]
          have hbefore : ∀ layer other : Layer, other ≠ layer →
              (layer ≠ 2 → other < layer + 1) → other < layer := by decide
          refine hbefore layer other heq fun hlayer => ?_
          rwa [if_neg hlayer] at hloaded
  | reportIo =>
      exact h.steady f.dev.reportIoValue_keeps.steady (by rw [hplace]; exact fun _ => trivial) nofun

theorem Consistent.on {f : Firmware φ} (h : f.Consistent) (board : Board φ) {event : Event}
    (hagrees : f.Agrees event) : (f.on board event).Consistent := by
  cases event with
  | timer port => exact h.timerIsr port
  | main input => exact h.step board input hagrees

/-- The first statement of the loop: the reload is pending. -/
theorem consistent_boot (eeprom : Eeprom) (flash : φ) (stack : ℕ → Byte) (buf devPnNum : Bytes)
    (port : Byte) : (boot eeprom flash stack buf devPnNum port).Consistent := by
  obtain ⟨regions, hwhole⟩ := boot_whole eeprom flash stack buf devPnNum port
  have hswitches : (boot eeprom flash stack buf devPnNum port).dev.alarmRegion.changeRegionValue =
        rdSwitchIoValue port ∧
      (boot eeprom flash stack buf devPnNum port).dev.alarmRegion.changeRegionFlag = 1 ∧
      (boot eeprom flash stack buf devPnNum port).dev.alarmRegion.lastIoValue = fun _ => 0 := by
    exact Device.powerUp_switches (Device.initial eeprom flash stack) buf devPnNum (rdSwitchIoValue port)
  obtain ⟨hvalue, hflag, hlast⟩ := hswitches
  refine ⟨⟨_, hwhole⟩, ?_, ?_, fun _ => hflag, fun hother => absurd hflag hother⟩
  · rw [hvalue]
    exact rdSwitchIoValue_le port
  · rw [hlast]
    exact fun _ => Nat.zero_le _

theorem consistent_run (board : Board φ) (eeprom : Eeprom) (flash : φ) (stack : ℕ → Byte)
    (buf devPnNum : Bytes) (port : Byte) {events : List Event}
    (hagrees : Machine.Along (Firmware.on board) Agrees (boot eeprom flash stack buf devPnNum port) events) :
    ((boot eeprom flash stack buf devPnNum port).run board events).Consistent :=
  Machine.Along.invariant (fun _ _ h hevent => h.on board hevent) hagrees
    (consistent_boot eeprom flash stack buf devPnNum port)

end Firmware

/-! ### The reports -/

namespace Device

/-- `NIOS_UP_ALARM_REGION` and `UP_ALARM_IO_VALUE` carry a number. -/
structure Reports (d : Device φ) (value : Byte) : Prop where
  answer : ∀ (socket : ℕ) (para : Word), para.toNat ≤ 15 → ∃ bytes,
    (d.readAlarmRegion socket para).nios.sent = d.nios.sent ++ [⟨socket, bytes⟩] ∧
      (bytes.drop 8).take 4 = [0, 0, 0, value]
  report : ∃ bytes, d.reportIoValue.nios.sent = d.nios.sent ++ [⟨0, bytes⟩] ++ [⟨1, bytes⟩] ∧
    (bytes.drop 8).take 4 = [0, 0, 0, value]

theorem bytesOf_byte (value : Byte) : bytesOf (value.setWidth 32) = [0, 0, 0, value] := by
  have hbytes : ∀ value : Byte, bytesOf (value.setWidth 32) = [0, 0, 0, value] := by decide +kernel
  exact hbytes value

/-- The four bytes behind the header of an answer, with something behind them. -/
theorem number_bytes (buf : Bytes) (n₀ n₁ n₂ n₃ : Byte) (behind : List Byte) :
    (((List.range 16).map (memcpy (memcpy buf 8 [n₀, n₁, n₂, n₃]) 12 behind)).drop 8).take 4 =
      [n₀, n₁, n₂, n₃] := rfl

theorem pc2devPacket_answer (d : Device φ) (hcommand : d.nios2pc.command = niosUpAlarmRegion)
    (hlen : d.nios2pc.dataLen = 4) :
    d.pc2devPacket.2 = 16 ∧
      (((List.range 16).map d.pc2devPacket.1.nios.sendBuffer).drop 8).take 4 =
        [0, 0, 0, d.alarmRegion.changeRegionValue] := by
  unfold pc2devPacket
  extract_lets garbage dataLen d₁ d₂ d₃ command d₄ d₅ checksum
  have hlength : dataLen = 4 := congrArg BitVec.toNat hlen
  rw [if_pos (show command = niosUpAlarmRegion from hcommand), hlength]
  exact ⟨rfl, number_bytes d₄.nios.sendBuffer 0 0 0 _ _⟩

theorem pc2devPacket_report (d : Device φ) (hcommand : d.nios2pc.command = upAlarmIoValue)
    {value : Byte} (hvalue : d.nios2pc.value = value.setWidth 32) :
    d.pc2devPacket.2 = 16 ∧
      (((List.range 16).map d.pc2devPacket.1.nios.sendBuffer).drop 8).take 4 = [0, 0, 0, value] := by
  have hother : upAlarmIoValue ≠ niosUpAlarmRegion ∧ upAlarmIoValue ≠ niosUpRegionData ∧
      upAlarmIoValue ≠ niosUpResponsePc ∧ upAlarmIoValue ≠ niosUpRadarPara ∧
      ¬ (upAlarmIoValue = niosRemoteWriteReponse ∨ upAlarmIoValue = niosUpRemoteUpdateImage) := by
    decide
  obtain ⟨hanswer, hregion, hresponse, hradar, hremote⟩ := hother
  rw [← hcommand] at hanswer hregion hresponse hradar hremote
  unfold pc2devPacket
  extract_lets garbage dataLen d₁ d₂ d₃ command
  rw [if_neg (show ¬ command = _ from hanswer), if_neg (show ¬ command = _ from hregion),
    if_neg (show ¬ command = _ from hresponse), if_neg (show ¬ command = _ from hradar),
    if_neg (show ¬ (command = _ ∨ command = _) from hremote)]
  have hbytes : bytesOf d₃.nios2pc.value = [0, 0, 0, value] := by
    rw [← bytesOf_byte, ← hvalue]
    rfl
  exact ⟨rfl, (number_bytes d₃.nios.sendBuffer _ _ _ _ _).trans hbytes⟩

theorem reports_value (d : Device φ) : d.Reports d.alarmRegion.changeRegionValue where
  answer := by
    intro socket para hpara
    obtain ⟨hlen, hbytes⟩ := pc2devPacket_answer
      { d with nios2pc := { d.nios2pc with command := niosUpAlarmRegion, dataLen := 4 } } rfl rfl
    obtain ⟨sendBuffer, stack, hbuffered⟩ := pc2devPacket_buffered
      { d with nios2pc := { d.nios2pc with command := niosUpAlarmRegion, dataLen := 4 } }
    unfold readAlarmRegion reply
    rw [if_pos hpara]
    dsimp only
    rw [hlen]
    refine ⟨_, ?_, hbytes⟩
    rw [hbuffered]
    rfl
  report := by
    let asked : Device φ := { d with
      nios2pc := { d.nios2pc with
        command := upAlarmIoValue, dataLen := 4, value := d.alarmRegion.changeRegionValue.setWidth 32 } }
    obtain ⟨hlen, hbytes⟩ := asked.pc2devPacket_report rfl rfl
    obtain ⟨sendBuffer, stack, hbuffered⟩ := pc2devPacket_buffered asked
    unfold reportIoValue
    dsimp only
    refine ⟨_, ?_, hbytes⟩
    show ((asked.pc2devPacket.1.send 0 asked.pc2devPacket.2).send 1 asked.pc2devPacket.2).nios.sent = _
    rw [hlen, hbuffered]
    rfl

end Device

/-! ### The group of the switches -/

namespace Firmware

/-- An EEPROM in which every byte of a space holds the number of its block. -/
def blockRom : Eeprom := fun addr => (addr >>> 11).setWidth 8

/-- The loop for the first time, the switches at 0. -/
def blockBoot : Firmware (Word → Byte) :=
  boot blockRom (fun _ => 0) (fun _ => 0) (fun _ => 0) (fun _ => 0) 0x0f

/-- `PC_SET_ALARM_REGION`, in the buffer of the socket. -/
def setRegionPacket (select : Byte) : Memory := fun a =>
  literal [0x12, 0x34, 0x40, 0x01, 0, 0, 0, 4, 0, 0, 0, select, 0xee, 0xee, 0xee, 0xee] a.toNat

/-- Two turns of the loop, the packet at the beginning of the second one. -/
def selectEvents (select : Byte) : List Event :=
  List.replicate 18 (.main ⟨.other, [], 0x0f⟩) ++
    [.main ⟨.established (setRegionPacket select) 16, [], 0x0f⟩] ++
    List.replicate 13 (.main ⟨.other, [], 0x0f⟩)

instance (f : Firmware φ) (event : Event) : Decidable (f.Agrees event) :=
  match event with
  | .timer _ => isTrue trivial
  | .main _ => by
      unfold Agrees
      dsimp only
      split <;> infer_instance

/-- **The active group.** In a run whose packets agree with the switches, the last packet sent for each layer
is that of the group that is reported, whenever `main` is at the top of its loop and no change is pending.
What the FPGA makes of the packets is another matter. -/
theorem shows_active (board : Board φ) (eeprom : Eeprom) (flash : φ) (stack : ℕ → Byte)
    (buf devPnNum : Bytes) (port : Byte) (events : List Event)
    (hagrees : Machine.Along (Firmware.on board) Agrees (boot eeprom flash stack buf devPnNum port) events)
    (htop : ((boot eeprom flash stack buf devPnNum port).run board events).place = .top)
    (hflag : ((boot eeprom flash stack buf devPnNum port).run board events).dev.alarmRegion.changeRegionFlag = 0) :
    (∀ layer, ((boot eeprom flash stack buf devPnNum port).run board events).dev.Shows layer) ∧
      ((boot eeprom flash stack buf devPnNum port).run board events).dev.Reports
        ((boot eeprom flash stack buf devPnNum port).run board events).dev.alarmRegion.changeRegionValue := by
  have hconsistent := consistent_run board eeprom flash stack buf devPnNum port hagrees
  refine ⟨fun layer => hconsistent.shown ?_ layer ?_, Device.reports_value _⟩
  · rw [hflag]
    decide
  · rw [htop]
    trivial

/-- Group 0 is selected again. -/
theorem shows_active_0 :
    (blockBoot.run sRI1Board (selectEvents 0)).place = .top ∧
      ∀ layer, (blockBoot.run sRI1Board (selectEvents 0)).dev.Shows layer := by
  obtain ⟨hagrees, htop, hflag⟩ :
      Machine.Along (Firmware.on sRI1Board) Agrees blockBoot (selectEvents 0) ∧
        (blockBoot.run sRI1Board (selectEvents 0)).place = .top ∧
        (blockBoot.run sRI1Board (selectEvents 0)).dev.alarmRegion.changeRegionFlag = 0 := by
    decide +kernel
  unfold blockBoot at hagrees htop hflag ⊢
  exact ⟨htop, (shows_active _ _ _ _ _ _ _ _ hagrees htop hflag).1⟩

/-- **Another group behind the back of the switches.** -/
theorem not_shows_selected :
    ¬ ∀ events : List Event, (blockBoot.run sRI1Board events).place = .top →
      (blockBoot.run sRI1Board events).dev.alarmRegion.changeRegionFlag = 0 →
      ∀ layer, (blockBoot.run sRI1Board events).dev.Shows layer := by
  intro hall
  have htop : (blockBoot.run sRI1Board (selectEvents 3)).place = .top := by decide +kernel
  have hflag : (blockBoot.run sRI1Board (selectEvents 3)).dev.alarmRegion.changeRegionFlag = 0 := by
    decide +kernel
  have hshows := hall (selectEvents 3) htop hflag 0
  -- the first boundary: group 3 in the FPGA, group 0 in the EEPROM
  have hsent : (Stream.lastData (wrRegion 0)
      (blockBoot.run sRI1Board (selectEvents 3)).dev.fpga).bind List.head? = some 0x0b0b := by
    decide +kernel
  have hstored : (tableWords (storedTable (blockBoot.run sRI1Board (selectEvents 3)).dev.eeprom
      (groupSpace (blockBoot.run sRI1Board (selectEvents 3)).dev.alarmRegion.changeRegionValue
        0))).head? = some 0x0202 := by
    decide +kernel
  rw [Device.Shows] at hshows
  rw [hshows, Option.bind_some, hstored] at hsent
  exact absurd hsent (by decide)

end Firmware

end SingleScan
