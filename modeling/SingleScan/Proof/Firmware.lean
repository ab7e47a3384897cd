import SingleScan.CommandLink
import SingleScan.Firmware
import SingleScan.Proof.Fpga2NiosProtocol
import SingleScan.Proof.Pc2Dev

/-!
# What the statements of the firmware leave alone

Answers and telegrams do not touch the parameters, the warnings, the regions and the EEPROM, and the
frames of the FPGA reach only the values they carry. What every statement preserves holds in every run.
-/

namespace SingleScan

open Pc2Dev

variable {φ : Type}

theorem Firmware.run_induction {P : Firmware φ → Prop} {board : Board φ}
    (hstep : ∀ f event, P f → P (f.on board event)) {f : Firmware φ} (h : P f)
    (events : List Event) : P (f.run board events) := by
  induction events generalizing f with
  | nil => exact h
  | cons event events ih => exact ih (hstep f event h)

/-! ### Answers -/

namespace Device

/-- The second device has the members of four bytes, the warnings, the regions and the EEPROM of the
first, and no word more for the FPGA. -/
structure Keeps (d d' : Device φ) : Prop where
  word : d'.nios.sysPara.word = d.nios.sysPara.word
  sysWarn : d'.nios.sysWarn = d.nios.sysWarn
  alarmRegion : d'.alarmRegion = d.alarmRegion
  eeprom : d'.eeprom = d.eeprom
  fpga : d'.fpga = d.fpga

theorem Keeps.refl (d : Device φ) : Keeps d d := ⟨rfl, rfl, rfl, rfl, rfl⟩

theorem Keeps.trans {d d' d'' : Device φ} (h : Keeps d d') (h' : Keeps d' d'') : Keeps d d'' :=
  ⟨h'.word.trans h.word, h'.sysWarn.trans h.sysWarn, h'.alarmRegion.trans h.alarmRegion,
    h'.eeprom.trans h.eeprom, h'.fpga.trans h.fpga⟩

theorem Buffered.keeps {d d' : Device φ} (h : Buffered d d') : Keeps d d' := by
  obtain ⟨sendBuffer, stack, rfl⟩ := h
  exact ⟨rfl, rfl, rfl, rfl, rfl⟩

theorem send_keeps (d : Device φ) (socket len : ℕ) : Keeps d (d.send socket len) :=
  ⟨rfl, rfl, rfl, rfl, rfl⟩

theorem pc2devPacket_keeps (d : Device φ) (nios2pc : Nios2Pc) :
    Keeps d { d with nios2pc := nios2pc }.pc2devPacket.1 :=
  have hreply : Keeps d { d with nios2pc := nios2pc } := ⟨rfl, rfl, rfl, rfl, rfl⟩
  hreply.trans (pc2devPacket_buffered _).keeps

theorem reply_keeps (d : Device φ) (socket : ℕ) (command dataLen : Word) :
    Keeps d (d.reply socket command dataLen) :=
  (pc2devPacket_keeps d _).trans (send_keeps _ _ _)

theorem reportIoValue_keeps (d : Device φ) : Keeps d d.reportIoValue := by
  have hpacket := pc2devPacket_keeps d { d.nios2pc with
    command := upAlarmIoValue
    dataLen := 4
    value := d.alarmRegion.changeRegionValue.setWidth 32 }
  exact (hpacket.trans (send_keeps _ 0 _)).trans (send_keeps _ 1 _)

theorem fill_keeps (d : Device φ) (offset : ℕ) (src : List Byte) : Keeps d (d.fill offset src) :=
  ⟨rfl, rfl, rfl, rfl, rfl⟩

theorem sendText_keeps (d : Device φ) (socket : ℕ) (s : CString) :
    Keeps d (d.sendText socket s) :=
  have hfilled := ((fill_keeps d 1 s.text).trans (fill_keeps _ 0 [0x02])).trans
    (fill_keeps _ (s.strlen + 1) [0x03])
  hfilled.trans (send_keeps _ _ _)

theorem sendHex_keeps (d : Device φ) (socket : ℕ) (s : CString) :
    Keeps d (d.sendHex socket s) :=
  (fill_keeps d _ _).trans (send_keeps _ _ _)

theorem sendTexts_keeps (d : Device φ) (socket : ℕ) (texts : List CString) :
    Keeps d (d.sendTexts socket texts) := by
  induction texts generalizing d with
  | nil => exact Keeps.refl d
  | cons s texts ih => exact (sendText_keeps d socket s).trans (ih _)

theorem sendHexs_keeps (d : Device φ) (socket : ℕ) (texts : List CString) :
    Keeps d (d.sendHexs socket texts) := by
  induction texts generalizing d with
  | nil => exact Keeps.refl d
  | cons s texts ih => exact (sendHex_keeps d socket s).trans (ih _)

theorem respond_keeps (d : Device φ) (t : Tim561) (socket : ℕ) (recvCommand : Bytes)
    (pos : Fin 572) : Keeps d (d.respond t socket recvCommand pos).1 := by
  unfold respond
  split_ifs
  · exact sendTexts_keeps d socket _
  · exact sendTexts_keeps d socket _
  · exact sendTexts_keeps d socket _
  · exact sendText_keeps d socket _
  · exact sendHex_keeps d socket _
  · exact sendText_keeps d socket _
  · exact Keeps.refl d

theorem noteMeasurement_keeps (d : Device φ) (recvCommand : Bytes) :
    Keeps d (d.noteMeasurement recvCommand) := by
  unfold noteMeasurement
  split_ifs <;> exact ⟨rfl, rfl, rfl, rfl, rfl⟩

theorem respondLong_keeps (d : Device φ) (t : Tim561) (socket : ℕ) (recvCommand : Bytes) :
    Keeps d (d.respondLong t socket recvCommand) := by
  unfold respondLong
  split_ifs
  · exact sendHexs_keeps d socket _
  · exact sendHex_keeps d socket _
  · exact sendHex_keeps d socket _
  · exact Keeps.refl d

/-- A telegram: what is kept, and at most the upload is switched. -/
structure Telegram (d d' : Device φ) : Prop where
  word : d'.nios.sysPara.word = d.nios.sysPara.word
  sysWarn : d'.nios.sysWarn = d.nios.sysWarn
  alarmRegion : d'.alarmRegion = d.alarmRegion
  eeprom : d'.eeprom = d.eeprom
  fpga : d'.fpga = d.fpga ∨ ∃ w, d'.fpga = d.fpga ++ SingleScan.setLaserParamter uploadEn w

theorem Keeps.telegram {d d' d'' : Device φ} (h : Keeps d d') (h' : Telegram d' d'') :
    Telegram d d'' := by
  refine ⟨h'.word.trans h.word, h'.sysWarn.trans h.sysWarn, h'.alarmRegion.trans h.alarmRegion,
    h'.eeprom.trans h.eeprom, ?_⟩
  rw [← h.fpga]
  exact h'.fpga

theorem applyEnable_telegram (d : Device φ) (enableFlag : ℕ) :
    Telegram d (d.applyEnable enableFlag) := by
  unfold applyEnable
  split_ifs
  · exact ⟨rfl, rfl, rfl, rfl, Or.inr ⟨enable, rfl⟩⟩
  · exact ⟨rfl, rfl, rfl, rfl, Or.inr ⟨disable, rfl⟩⟩
  · exact ⟨rfl, rfl, rfl, rfl, Or.inl rfl⟩

theorem sickProtocolProcess_telegram (d : Device φ) (t : Tim561) (socket : ℕ) (buf : Bytes)
    (len : Word) : Telegram d (d.sickProtocolProcess t socket buf len) := by
  unfold sickProtocolProcess
  dsimp only
  cases findIndex t (fun i => buf (i + 1)) (len.toInt - 2) with
  | none => exact ⟨rfl, rfl, rfl, rfl, Or.inl rfl⟩
  | some pos =>
      have hanswer := respond_keeps d t socket (fun i => buf (i + 1)) pos
      exact ((hanswer.trans (noteMeasurement_keeps _ _)).trans
        (respondLong_keeps _ t socket _)).telegram (applyEnable_telegram _ _)

end Device

/-! ### Packets -/

namespace Device

/-- The call of `region_save2fpga` in `region_read_from_rom`. -/
def regionSend (d : Device φ) (num : Word) : CommandLink.Send :=
  .regionSave2fpga (d.regionReadFromRom num).alarmRegion.buffer
    ⟨num.toNat % 3, layer_lt num⟩

theorem regionReadFromRom_fpga (d : Device φ) (num : Word) :
    (d.regionReadFromRom num).fpga = d.fpga ++ (d.regionSend num).words := rfl

variable (d : Device φ) (driver : FlashDriver φ) (socket : ℕ) (buf : Bytes)

/-- The device when a packet's handler begins. -/
def entered : Device φ :=
  { d.readHeader buf with
    alarmRegion :=
      if commandOf buf = pcSetAlarmRegion then { d.alarmRegion with select := paraOf buf }
      else d.alarmRegion }

theorem serve_eq :
    d.serve driver socket buf =
      if refused buf then d.entered buf
      else (d.entered buf).execute driver socket buf (paraOf buf) := by
  unfold serve entered
  extract_lets d₁
  by_cases hcommand : commandOf buf = pcSetAlarmRegion
  · rw [if_pos hcommand, if_pos hcommand]
    rfl
  · have hserved : refused buf = false := by
      simp [refused, hcommand]
    rw [if_neg hcommand, if_neg hcommand, hserved]
    rfl

/-- What holds behind the header and behind every handler holds behind a packet. -/
theorem serve_induction {P : Device φ → Prop} (hheader : P (d.entered buf))
    (hexecute : P ((d.entered buf).execute driver socket buf (paraOf buf))) :
    P (d.serve driver socket buf) := by
  rw [serve_eq]
  split_ifs
  · exact hheader
  · exact hexecute

theorem execute_sysWarn (para : Word) :
    (d.execute driver socket buf para).nios.sysWarn = d.nios.sysWarn := by
  have hcases := execute_cases (motive := fun _ f => (f buf).nios.sysWarn = d.nios.sysWarn)
    d driver socket para
  refine hcases rfl ?_ ?_ ?_ ?_ rfl rfl rfl rfl rfl rfl ?_ ?_ rfl ?_ ?_
  · unfold readAlarmRegion
    split_ifs
    · exact (reply_keeps d _ _ _).sysWarn
    · rfl
  · unfold loadRegionData
    dsimp only
    split_ifs <;> rfl
  · unfold reqRegionData
    exact (reply_keeps _ _ _ _).sysWarn
  · exact (reply_keeps d socket niosUpRadarPara (BitVec.ofNat 32 sizeofSysPara)).sysWarn
  · unfold remoteUpdateWrite
    exact (reply_keeps _ _ _ _).sysWarn
  · unfold remoteUpdateRead
    exact (reply_keeps _ _ _ _).sysWarn
  · intro command m _ _ _
    unfold change
    split_ifs <;> rfl
  · intro command _ _
    rfl

theorem serve_sysWarn : (d.serve driver socket buf).nios.sysWarn = d.nios.sysWarn :=
  serve_induction d driver socket buf (P := fun d' => d'.nios.sysWarn = d.nios.sysWarn) rfl
    (execute_sysWarn _ driver socket buf _)

/-- `laser_enable` is one of the two values that a command can give it. -/
def Switched (d : Device φ) : Prop :=
  d.nios.sysPara.word .laserEnable = enable ∨ d.nios.sysPara.word .laserEnable = disable

variable {d}

theorem Switched.of_eq {d' : Device φ} (h : d.Switched)
    (hlaser : d'.nios.sysPara.word .laserEnable = d.nios.sysPara.word .laserEnable) :
    d'.Switched := by
  unfold Switched
  rwa [hlaser]

theorem Switched.of_word {d' : Device φ} (h : d.Switched)
    (hword : d'.nios.sysPara.word = d.nios.sysPara.word) : d'.Switched :=
  h.of_eq (congrFun hword _)

theorem Switched.change (h : d.Switched) (m : Setting) (para : Word) : (d.change m para).Switched := by
  unfold Device.change
  split_ifs with haccepts
  · by_cases hm : m.member para = .laserEnable
    · have hlaser : m = .laserEnable := by
        cases m
        case laserEnable => rfl
        case apdVolSetting =>
            unfold Setting.member at hm
            split_ifs at hm
        all_goals cases hm
      subst hlaser
      have hvalue : para = enable ∨ para = disable := by
        simpa [Setting.accepts] using haccepts
      show (SysPara.set _ (Setting.laserEnable.member para) para).word .laserEnable = enable ∨ _
      rw [hm, SysPara.set_self]
      exact hvalue
    · exact h.of_eq (SysPara.set_of_ne _ _ (Ne.symm hm))
  · exact h

theorem Switched.execute (h : d.Switched) (para : Word) :
    (d.execute driver socket buf para).Switched := by
  have hcases := execute_cases (motive := fun _ f => (f buf).Switched) d driver socket para
  refine hcases (h.of_eq rfl) ?_ ?_ ?_ ?_ (h.of_eq rfl) (h.of_eq rfl) (h.of_eq rfl) (h.of_eq rfl) ?_
    (h.of_eq rfl) ?_ ?_ (h.of_eq rfl) ?_ ?_
  · unfold readAlarmRegion
    split_ifs
    · exact h.of_word (reply_keeps d _ _ _).word
    · exact h
  · unfold loadRegionData
    dsimp only
    split_ifs <;> exact h.of_eq rfl
  · unfold reqRegionData
    exact h.of_word (reply_keeps _ _ _ _).word
  · exact h.of_word (reply_keeps d socket niosUpRadarPara (BitVec.ofNat 32 sizeofSysPara)).word
  · exact h.of_eq (SysPara.set_of_ne _ _ (by decide))
  · unfold remoteUpdateWrite
    exact h.of_word (reply_keeps _ _ _ _).word
  · unfold remoteUpdateRead
    exact h.of_word (reply_keeps _ _ _ _).word
  · intro command m _ _ _
    exact h.change m para
  · intro command _ _
    exact h

theorem Switched.serve (h : d.Switched) : (d.serve driver socket buf).Switched := by
  have hheader : (d.entered buf).Switched := h.of_eq (SysPara.set_of_ne _ _ (by decide))
  exact serve_induction d driver socket buf hheader (hheader.execute driver socket buf _)

end Device

/-! ### The turns of the parser -/

/-- A turn of `pc2dev_parse` does nothing, answers a telegram or serves a packet. -/
theorem Call.turn_cases (board : Board φ) (socket : ℕ) (mem : Memory) (c : Call φ) :
    (c.turn board socket mem).dev = c.dev ∨
      (c.turn board socket mem).dev =
        c.dev.sickProtocolProcess board.tim561 socket (mem.at c.buf) c.len ∨
      (c.running = true ∧ mem.at c.buf 0 ≠ 0x02 ∧
        (c.turn board socket mem).dev = c.dev.serve board.driver socket (mem.at c.buf)) := by
  cases hrunning : c.running with
  | false =>
      left
      rw [Call.turn_of_not_running board socket mem hrunning]
  | true =>
      right
      by_cases hstx : mem.at c.buf 0 = 0x02
      · left
        rw [Call.turn_telegram board socket mem hrunning hstx]
      · right
        refine ⟨rfl, hstx, ?_⟩
        cases hrefused : refused (mem.at c.buf) with
        | true => rw [Call.turn_refused board socket mem hrunning hstx hrefused]
        | false => rw [Call.turn_served board socket mem hrunning hstx hrefused]

/-! ### The frames of the FPGA -/

namespace Nios

/-- The members that a status frame carries. -/
def statusWords : List SysWord :=
  [.motorRealSpeed, .zeroValue, .placeholer1, .sysTemp, .zeroPulseWidth]

theorem takeStatus_word (s : Nios) {m : SysWord} (hm : m ∉ statusWords) :
    s.takeStatus.sysPara.word m = s.sysPara.word m := by
  simp only [statusWords, List.mem_cons, List.not_mem_nil, or_false, not_or] at hm
  obtain ⟨hspeed, hzero, hdust, htemp, hpulse⟩ := hm
  simp [takeStatus, SysPara.set, queuePop, hspeed, hzero, hdust, htemp, hpulse]

theorem parseStatus_word (s : Nios) {m : SysWord} (hm : m ∉ statusWords) :
    s.parseStatus.sysPara.word m = s.sysPara.word m := by
  simp only [parseStatus, sendWarning_sysPara, processWarnings_sysPara]
  exact takeStatus_word { s with sysWarn := { s.sysWarn with len := s.sysWarn.len % 5 } } hm

theorem parseDistance_sysPara (s : Nios) : s.parseDistance.sysPara = s.sysPara := by
  let s₀ := { s with cycleData := { s.cycleData with distanceLen := 0, grayLen := 0 } }
  have hloop := distanceStep_sysPara s.fpga2niosData.dataLen.toNat s₀
  refine Eq.trans ?_ hloop
  unfold parseDistance finishDistance
  dsimp only
  split <;> rfl

theorem fpga2niosParse_word (s : Nios) {m : SysWord} (hm : m ∉ statusWords) :
    s.fpga2niosParse.sysPara.word m = s.sysPara.word m := by
  have hheader := (parseHeader_sameStore s).sysPara
  unfold fpga2niosParse
  extract_lets header
  split_ifs
  · rw [parseDistance_sysPara, hheader]
  · rw [parseStatus_word _ hm, hheader]
  · rw [hheader]

/-- Sending a telegram touches neither the parameters nor the warnings. -/
theorem sendPieces_keeps (turns offset : ℕ) (s : Nios) :
    (s.sendPieces turns offset).sysPara = s.sysPara ∧
      (s.sendPieces turns offset).sysWarn = s.sysWarn := by
  induction turns generalizing offset s with
  | zero => exact ⟨rfl, rfl⟩
  | succ turns ih =>
      unfold sendPieces
      extract_lets len
      split_ifs
      · exact ih _ _
      · exact ⟨rfl, rfl⟩
      · exact ⟨rfl, rfl⟩

theorem sickPosPacket_keeps (s : Nios) :
    s.sickPosPacket.sysPara = s.sysPara ∧ s.sickPosPacket.sysWarn = s.sysWarn := by
  unfold sickPosPacket
  exact ⟨rfl, rfl⟩

theorem publish_keeps (s : Nios) :
    s.publish.sysPara = s.sysPara ∧ s.publish.sysWarn = s.sysWarn := by
  by_cases hfinish : s.cycleData.posFinish = true
  · let sent := { s with cycleData := { s.cycleData with posFinish := false } }
    have hpublish : s.publish = sent.sickPosPacket.sendPieces 6 0 := if_pos hfinish
    obtain ⟨hpieces, hpieces'⟩ := sendPieces_keeps 6 0 sent.sickPosPacket
    obtain ⟨hpacket, hpacket'⟩ := sickPosPacket_keeps sent
    rw [hpublish, hpieces, hpieces', hpacket, hpacket']
    exact ⟨rfl, rfl⟩
  · rw [publish, if_neg hfinish]
    exact ⟨rfl, rfl⟩

end Nios

theorem Device.receive_word (d : Device φ) (fifo : List Word) {m : SysWord}
    (hm : m ∉ Nios.statusWords) :
    (d.receive fifo).nios.sysPara.word m = d.nios.sysPara.word m := by
  unfold receive
  dsimp only
  split_ifs
  · exact Nios.fpga2niosParse_word _ hm
  · rfl

namespace Firmware

variable (board : Board φ)

theorem parse_dev (f : Firmware φ) (i : Fin 5) (mem : Memory) (buf len : Word) :
    (f.parse board i mem buf len).dev =
      (Call.turn board (socket i) mem ⟨f.dev, buf, len, false⟩).dev := by
  unfold parse
  dsimp only
  split_ifs <;> rfl

theorem lookAt_dev (f : Firmware φ) (i : Fin 5) (status : SocketStatus) :
    (f.lookAt i status).dev = f.dev ∨
      (f.lookAt i status).dev = f.dev.setRegion fun r => { r with changeRegionFlag := 0x01 } := by
  cases status with
  | established mem len =>
      simp only [lookAt]
      split_ifs
      · exact Or.inl rfl
      · exact Or.inr rfl
      · exact Or.inl rfl
      · exact Or.inl rfl
  | closed => exact Or.inl rfl
  | other => exact Or.inl rfl

/-- The device behind an event, as a case distinction on what the event can be. -/
theorem on_cases {P : Device φ → Prop} (f : Firmware φ) (event : Event)
    (hserve : ∀ i mem buf len, f.place = .parsing i mem buf len → mem.at buf 0 ≠ 0x02 →
      P (f.dev.serve board.driver (socket i) (mem.at buf)))
    (htelegram : ∀ d', Device.Telegram f.dev d' → P d')
    (hreceive : ∀ fifo, f.place = .receive → P (f.dev.receive fifo))
    (hpublish : P { f.dev with nios := f.dev.nios.publish })
    (halarms : f.place = .signalAlarms → P f.dev.signalAlarms)
    (hregion : ∀ g, P (f.dev.setRegion g))
    (hload : ∀ num, P (f.dev.regionReadFromRom num))
    (hreport : P f.dev.reportIoValue)
    (hself : P f.dev) : P (f.on board event).dev := by
  cases event with
  | timer port =>
      show P (f.timerIsr port).dev
      unfold timerIsr
      extract_lets value
      split_ifs
      · dsimp only
        exact hregion _
      · exact hself
  | main input =>
      show P (f.step board input).dev
      unfold step
      dsimp only
      split
      case h_1 i _ =>
        rcases f.lookAt_dev i input.status with hdev | hdev <;> rw [hdev]
        · exact hself
        · exact hregion _
      case h_2 i mem buf len hplace =>
        rw [parse_dev]
        rcases Call.turn_cases board (socket i) mem ⟨f.dev, buf, len, false⟩ with
          hdev | hdev | ⟨-, hcustom, hdev⟩ <;> rw [hdev]
        · exact hself
        · exact htelegram _ (Device.sickProtocolProcess_telegram _ _ _ _ _)
        · exact hserve i mem buf len hplace hcustom
      case h_3 hplace => exact hreceive _ hplace
      case h_4 => exact hpublish
      case h_5 hplace => exact halarms hplace
      case h_6 =>
        dsimp only
        exact hregion _
      case h_7 => exact hself
      case h_8 =>
        dsimp only
        exact hregion _
      case h_9 =>
        dsimp only
        exact hregion _
      case h_10 =>
        dsimp only
        exact hregion _
      case h_11 =>
        split_ifs
        · exact hreport
        · exact hself
      case h_12 => exact hself
      case h_13 =>
        dsimp only
        exact hregion _
      case h_14 => exact hload _
      case h_15 => exact hreport

theorem switched_on (f : Firmware φ) (event : Event) (h : f.dev.Switched) :
    (f.on board event).dev.Switched := by
  refine on_cases board f event ?_ ?_ ?_ ?_ ?_ ?_ ?_ ?_ h
  · exact fun i mem buf _ _ _ => h.serve board.driver (socket i) (mem.at buf)
  · exact fun d' htelegram => h.of_word htelegram.word
  · exact fun fifo _ => h.of_eq (f.dev.receive_word fifo (by decide))
  · exact h.of_word (congrArg SysPara.word f.dev.nios.publish_keeps.1)
  · intro _
    refine h.of_word ?_
    unfold Device.signalAlarms
    dsimp only
    split_ifs <;> rfl
  · exact fun g => h
  · exact fun num => h
  · exact h.of_word f.dev.reportIoValue_keeps.word

theorem on_sysWarn (f : Firmware φ) (event : Event) (hplace : f.place ≠ .receive) :
    (f.on board event).dev.nios.sysWarn = f.dev.nios.sysWarn := by
  refine on_cases board (P := fun d' => d'.nios.sysWarn = f.dev.nios.sysWarn) f event
    ?_ ?_ ?_ ?_ ?_ ?_ ?_ ?_ rfl
  · exact fun i mem buf _ _ _ => f.dev.serve_sysWarn board.driver (socket i) (mem.at buf)
  · exact fun d' htelegram => htelegram.sysWarn
  · exact fun fifo h => absurd h hplace
  · exact f.dev.nios.publish_keeps.2
  · intro _
    unfold Device.signalAlarms
    dsimp only
    split_ifs <;> rfl
  · exact fun g => rfl
  · exact fun num => rfl
  · exact f.dev.reportIoValue_keeps.sysWarn

end Firmware

end SingleScan
