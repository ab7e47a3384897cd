import SingleScan.Lib.Run
import SingleScan.Proof.Startup
import SingleScan.Proof.Stream

/-!
# The fault output

`SingleScan.v` drives the fault pin from bit 0 of `laser_freq`, and `main` sends `LASER_FREQ` with the
four alarms combined, but only while one of them is on. What the last `LASER_FREQ` word is in every run.
-/

namespace SingleScan

variable {φ : Type}

/-! ### The alarms -/

namespace SysWarn

/-- The four alarms combined. -/
def fault (warn : SysWarn) : Word :=
  warn.motorLowSpeedAlarm ||| warn.ldNotWorkAlarm ||| warn.windowDustAlarm ||| warn.tempOutAlarm

/-- Every alarm is on or off. -/
structure Binary (warn : SysWarn) : Prop where
  motor : warn.motorLowSpeedAlarm = 0 ∨ warn.motorLowSpeedAlarm = 1
  ld : warn.ldNotWorkAlarm = 0 ∨ warn.ldNotWorkAlarm = 1
  dust : warn.windowDustAlarm = 0 ∨ warn.windowDustAlarm = 1
  temp : warn.tempOutAlarm = 0 ∨ warn.tempOutAlarm = 1

theorem Binary.fault {warn : SysWarn} (h : warn.Binary) : warn.fault = 0 ∨ warn.fault = 1 := by
  unfold SysWarn.fault
  rcases h.motor with hm | hm <;> rcases h.ld with hl | hl <;> rcases h.dust with hd | hd <;>
    rcases h.temp with ht | ht <;> rw [hm, hl, hd, ht] <;> decide

end SysWarn

namespace Fpga2Nios

theorem tempOut_binary (tempValue : Word) : tempOut tempValue = 0 ∨ tempOut tempValue = 1 := by
  unfold tempOut
  dsimp only
  split_ifs
  · exact Or.inr rfl
  · exact Or.inl rfl
  · exact Or.inr rfl
  · exact Or.inl rfl

theorem ite_binary {c : Prop} [Decidable c] :
    (if c then (0x01 : Word) else 0x00) = 0 ∨ (if c then (0x01 : Word) else 0x00) = 1 := by
  split_ifs
  · exact Or.inr rfl
  · exact Or.inl rfl

theorem processSysTempWaring_temp (data : SysWarn) :
    (processSysTempWaring data).tempOutAlarm = tempOut (data.tempValue 4) := by
  simp [processSysTempWaring, List.finRange_succ]

theorem processMotorWaring_binary (para : SysPara) (data : SysWarn) :
    (processMotorWaring para data).motorLowSpeedAlarm = 0 ∨
      (processMotorWaring para data).motorLowSpeedAlarm = 1 := by
  unfold processMotorWaring
  dsimp only
  split_ifs
  · exact Or.inr rfl
  · exact Or.inl rfl
  · exact Or.inl rfl

theorem process_binary (para : SysPara) (data : SysWarn) :
    (processSysTempWaring (processWindowDustWaring para
      (processLdWaring (processMotorWaring para data)))).Binary := by
  refine ⟨processMotorWaring_binary para data, ite_binary, ite_binary, ?_⟩
  rw [processSysTempWaring_temp]
  exact tempOut_binary _

end Fpga2Nios

namespace Nios

theorem processWarnings_binary (s : Nios) (h : s.sysWarn.Binary) : s.processWarnings.sysWarn.Binary := by
  unfold processWarnings
  split_ifs
  · exact Fpga2Nios.process_binary _ _
  · exact h

theorem sendWarning_sysWarn (s : Nios) : s.sendWarning.sysWarn = s.sysWarn := by
  simp only [sendWarning]
  split <;> rfl

theorem parseStatus_binary (s : Nios) (h : s.sysWarn.Binary) : s.parseStatus.sysWarn.Binary := by
  unfold parseStatus
  dsimp only
  rw [sendWarning_sysWarn]
  exact processWarnings_binary _ ⟨h.motor, h.ld, h.dust, h.temp⟩

theorem distanceStep_sysWarn (n : ℕ) (s : Nios) : (distanceStep^[n] s).sysWarn = s.sysWarn := by
  induction n with
  | zero => rfl
  | succ n ih =>
      rw [Function.iterate_succ_apply']
      exact ih

theorem finishDistance_binary (s : Nios) (h : s.sysWarn.Binary) : s.finishDistance.sysWarn.Binary := by
  unfold finishDistance
  dsimp only
  split_ifs
  · exact ⟨h.motor, h.ld, h.dust, h.temp⟩
  · exact ⟨h.motor, h.ld, h.dust, h.temp⟩
  · exact h

theorem parseDistance_binary (s : Nios) (h : s.sysWarn.Binary) : s.parseDistance.sysWarn.Binary := by
  let s₀ := { s with cycleData := { s.cycleData with distanceLen := 0, grayLen := 0 } }
  have hloop : (distanceStep^[s.fpga2niosData.dataLen.toNat] s₀).sysWarn = s.sysWarn :=
    distanceStep_sysWarn _ s₀
  refine finishDistance_binary _ ?_
  show SysWarn.Binary (distanceStep^[s.fpga2niosData.dataLen.toNat] s₀).sysWarn
  rwa [hloop]

theorem fpga2niosParse_binary (s : Nios) (h : s.sysWarn.Binary) : s.fpga2niosParse.sysWarn.Binary := by
  have hheader : s.parseHeader.sysWarn.Binary := by
    rwa [(parseHeader_sameStore s).sysWarn]
  unfold fpga2niosParse
  extract_lets header
  split_ifs
  · exact parseDistance_binary _ hheader
  · exact parseStatus_binary _ hheader
  · exact hheader

end Nios

theorem Device.receive_binary (d : Device φ) (fifo : List Word) (h : d.nios.sysWarn.Binary) :
    (d.receive fifo).nios.sysWarn.Binary := by
  unfold receive
  dsimp only
  split_ifs
  · exact Nios.fpga2niosParse_binary _ h
  · exact h

theorem Firmware.on_binary (board : Board φ) (f : Firmware φ) (event : Event)
    (h : f.dev.nios.sysWarn.Binary) : (f.on board event).dev.nios.sysWarn.Binary := by
  by_cases hplace : f.place = .receive
  · refine on_cases board (P := fun d' => d'.nios.sysWarn.Binary) f event
      ?_ ?_ ?_ ?_ ?_ ?_ ?_ ?_ h
    · intro i mem buf len hparsing
      exact absurd (hplace.symm.trans hparsing) nofun
    · intro d' htelegram
      rwa [htelegram.sysWarn]
    · exact fun fifo _ => f.dev.receive_binary fifo h
    · rwa [show _ = _ from f.dev.nios.publish_keeps.2]
    · intro halarms
      exact absurd (hplace.symm.trans halarms) nofun
    · exact fun g => h
    · exact fun num => h
    · rwa [f.dev.reportIoValue_keeps.sysWarn]
  · rwa [f.on_sysWarn board event hplace]

/-! ### What is sent -/

open CommandLink Pc2Dev

namespace Device

/-- Only a packet with that command makes the Nios core send it. -/
theorem Allowed.ne_laserFreq {command : Word} {send : Send} (h : Allowed command send)
    (hcommand : command ≠ Setting.laserFreq.command.setWidth 32) :
    send.command ≠ Setting.laserFreq.command := by
  cases h with
  | setting hown => exact fun heq => hcommand (hown.symm.trans (congrArg _ heq))
  | upload => exact fun heq : uploadEn = _ => absurd heq (by decide)
  | answer => exact fun heq : (0xc000 : BitVec 16) = _ => absurd heq (by decide)
  | region _ =>
      have hother : ∀ num, CommandModule.wrRegion num ≠ Setting.laserFreq.command := by decide
      exact hother _

/-- The chain of alarms sends the fault, unless there is none. -/
theorem signalAlarms_sends (d : Device φ) :
    (d.nios.sysWarn.fault = 0 ∧ d.signalAlarms.fpga = d.fpga) ∨
      (d.nios.sysWarn.fault ≠ 0 ∧ ∃ more,
        Sends d d.signalAlarms (.setLaserParamter Setting.laserFreq.command d.nios.sysWarn.fault :: more) ∧
          ∀ send ∈ more, send.command ≠ Setting.laserFreq.command) := by
  have hsum : d.nios.sysWarn.motorLowSpeedAlarm ||| d.nios.sysWarn.ldNotWorkAlarm |||
      d.nios.sysWarn.tempOutAlarm ||| d.nios.sysWarn.windowDustAlarm = d.nios.sysWarn.fault := by
    rw [SysWarn.fault, BitVec.or_assoc, BitVec.or_comm d.nios.sysWarn.tempOutAlarm,
      ← BitVec.or_assoc]
  unfold signalAlarms
  extract_lets warn fault
  rw [show fault = d.nios.sysWarn.fault from hsum]
  split_ifs with hstop hdust htemp
  · refine Or.inr ⟨?_, _, (sends_setLaserParamter d _ _).trans (sends_setLaserParamter _ _ _), ?_⟩
    · intro hzero
      exact hstop (BitVec.or_eq_zero_iff.mp (BitVec.or_eq_zero_iff.mp hzero).1).1
    · decide
  · refine Or.inr ⟨?_, [], sends_setLaserParamter d _ _, nofun⟩
    intro hzero
    exact hdust (BitVec.or_eq_zero_iff.mp (BitVec.or_eq_zero_iff.mp hzero).1).2
  · refine Or.inr ⟨?_, [], sends_setLaserParamter d _ _, nofun⟩
    intro hzero
    exact htemp (BitVec.or_eq_zero_iff.mp hzero).2
  · rw [not_not] at hstop hdust htemp
    refine Or.inl ⟨?_, rfl⟩
    unfold SysWarn.fault
    rw [hstop, hdust, htemp]
    rfl

end Device

/-- The last word of a command among the packets of some calls. -/
theorem CommandLink.last_sends (sends : List Send) {command : BitVec 16}
    (hcommand : ∀ num, command ≠ CommandModule.wrRegion num) :
    Stream.last command (sends.map Send.stream) =
      (dataFor command sends).getLast?.map fun w => [w] := by
  induction sends with
  | nil => rfl
  | cons send sends ih =>
      rw [dataFor_cons, List.getLast?_append, List.map_cons, ← List.singleton_append,
        Stream.last_append, ih]
      have hone : Stream.last command [send.stream] =
          (dataFor command [send]).getLast?.map fun w => [w] := by
        cases send with
        | setLaserParamter c w =>
            by_cases hc : c = command
            · have hlow : (Send.setLaserParamter c w).stream.head.low = command :=
                (Send.stream_low _).trans hc
              rw [← List.nil_append [Send.stream _], Stream.last_concat [] hlow, dataFor,
                List.flatMap_singleton]
              dsimp only
              rw [if_pos hc]
              rfl
            · have hlow : (Send.setLaserParamter c w).stream.head.low ≠ command := by
                rw [Send.stream_low]
                exact hc
              rw [← List.nil_append [Send.stream _], Stream.last_append_of_ne [] (by simpa using hlow),
                dataFor, List.flatMap_singleton]
              dsimp only
              rw [if_neg hc]
              rfl
        | regionSave2fpga buffer num =>
            have hlow : (Send.regionSave2fpga buffer num).stream.head.low ≠ command := by
              rw [Send.stream_low]
              exact (hcommand num).symm
            rw [← List.nil_append [Send.stream _], Stream.last_append_of_ne [] (by simpa using hlow)]
            rfl
      rw [hone]
      cases (dataFor command sends).getLast? <;> rfl

theorem CommandLink.last_initPackets (para : SysPara) :
    Stream.last Setting.laserFreq.command (initPackets para) = some [para.word .laserFreq] := by
  have hregion : ∀ num, Setting.laserFreq.command ≠ CommandModule.wrRegion num := by decide
  have hpresdo : ∀ q ∈ [presdoStream para.presdoBytes], q.head.low ≠ Setting.laserFreq.command := by
    intro q hq
    rw [List.mem_singleton.mp hq, presdoStream]
    dsimp only
    decide
  rw [initPackets, Stream.last_append_of_ne _ hpresdo, last_sends _ hregion,
    dataFor_initSends _ (by decide)]
  rfl

namespace Firmware

/-- The event hands a packet with `LASER_FREQ` to its handler. -/
def TakesLaserFreq (f : Firmware φ) : Event → Prop
  | .main _ =>
    match f.place with
    | .parsing _ mem buf _ =>
      mem.at buf 0 ≠ 0x02 ∧ commandOf (mem.at buf) = Setting.laserFreq.command.setWidth 32
    | _ => False
  | .timer _ => False

/-- The event makes the chain of alarms find one that is on. -/
def Signals (f : Firmware φ) (event : Event) : Prop :=
  f.place = .signalAlarms ∧ f.dev.nios.sysWarn.fault ≠ 0 ∧ ∃ input, event = .main input

/-- Bit 0 of the last `LASER_FREQ` word is the alarms combined. -/
def Tracks (f : Firmware φ) : Prop :=
  ∃ w : Word, Stream.lastData Setting.laserFreq.command f.dev.fpga = some [w] ∧
    w &&& 1 = f.dev.nios.sysWarn.fault

/-- `w` is the last `LASER_FREQ` word. A new alarm is not in it before the chain has been executed. -/
structure Announced (f : Firmware φ) (w : Word) : Prop where
  sent : ∃ ps, Stream.Whole f.dev.fpga ps ∧ Stream.last Setting.laserFreq.command ps = some [w]
  binary : f.dev.nios.sysWarn.Binary
  bit : f.place ≠ .publish → f.place ≠ .signalAlarms → f.dev.nios.sysWarn.fault ≠ 0 →
    w.getLsbD 0 = true

variable (board : Board φ)

/-- Every event but the chain of alarms leaves `LASER_FREQ` alone. -/
theorem on_only (f : Firmware φ) (event : Event) (hfree : ¬ f.TakesLaserFreq event)
    (hplace : f.place = .signalAlarms → ∀ input, event ≠ .main input) :
    Device.Only (fun send => send.command ≠ Setting.laserFreq.command) f.dev
      (f.on board event).dev := by
  have hweaken : ∀ {d' : Device φ} {command : Word},
      command ≠ Setting.laserFreq.command.setWidth 32 →
      Device.Only (Device.Allowed command) f.dev d' →
      Device.Only (fun send => send.command ≠ Setting.laserFreq.command) f.dev d' := by
    rintro d' command hcommand ⟨sends, hsends, hall⟩
    exact ⟨sends, hsends, fun send hsend => (hall send hsend).ne_laserFreq hcommand⟩
  have hnone : (0 : Word) ≠ Setting.laserFreq.command.setWidth 32 := by decide
  cases event with
  | timer port =>
      refine Device.Only.none ?_
      show (f.timerIsr port).dev.fpga = _
      unfold timerIsr
      dsimp only
      split_ifs <;> rfl
  | main input =>
      refine on_cases board f (.main input) ?_ ?_ ?_ ?_ ?_ ?_ ?_ ?_ (Device.Only.none rfl)
      · intro i mem buf len hparsing hcustom
        refine hweaken ?_ (f.dev.serve_only board.driver (socket i) (mem.at buf))
        intro hcommand
        refine hfree ?_
        unfold TakesLaserFreq
        rw [hparsing]
        exact ⟨hcustom, hcommand⟩
      · exact fun d' htelegram => hweaken hnone (htelegram.only 0)
      · intro fifo _
        refine Device.Only.none ?_
        unfold Device.receive
        dsimp only
        split_ifs <;> rfl
      · exact Device.Only.none rfl
      · exact fun h => absurd rfl (hplace h input)
      · exact fun g => Device.Only.none rfl
      · exact fun num => hweaken (by decide) (Device.regionReadFromRom_only f.dev num)
      · exact Device.Only.none f.dev.reportIoValue_keeps.fpga

theorem timer_keeps (f : Firmware φ) (port : Byte) :
    (f.on board (.timer port)).place = f.place ∧
      (f.on board (.timer port)).dev.nios = f.dev.nios := by
  show (f.timerIsr port).place = _ ∧ (f.timerIsr port).dev.nios = _
  unfold timerIsr
  dsimp only
  split_ifs <;> exact ⟨rfl, rfl⟩

/-- Behind the frame comes the telegram, and behind the telegram the chain of alarms. -/
theorem main_place (f : Firmware φ) (input : Input) :
    (f.place = .receive → (f.on board (.main input)).place = .publish) ∧
      (f.place = .publish → (f.on board (.main input)).place = .signalAlarms) := by
  show (_ → (f.step board input).place = _) ∧ (_ → (f.step board input).place = _)
  unfold step
  constructor
  · intro h
    rw [h]
  · intro h
    rw [h]

/-- **One event.** -/
theorem Announced.on {f : Firmware φ} {w : Word} (h : f.Announced w) {event : Event}
    (hfree : ¬ f.TakesLaserFreq event) :
    ∃ w', (f.on board event).Announced w' ∧
      (w'.getLsbD 0 = true ↔ w.getLsbD 0 = true ∨ f.Signals event) := by
  obtain ⟨ps, hwhole, hlast⟩ := h.sent
  have hbinary := f.on_binary board event h.binary
  by_cases hchain : f.place = .signalAlarms ∧ ∃ input, event = .main input
  · obtain ⟨hplace, input, rfl⟩ := hchain
    have hstep : f.on board (.main input) = { f with dev := f.dev.signalAlarms, place := .readIo } := by
      show f.step board input = _
      unfold step
      rw [hplace]
    have hwarn : (f.on board (.main input)).dev.nios.sysWarn = f.dev.nios.sysWarn :=
      f.on_sysWarn board _ (by rw [hplace]; nofun)
    rcases f.dev.signalAlarms_sends with ⟨hzero, hfpga⟩ | ⟨hfault, more, hsends, hother⟩
    · refine ⟨w, ⟨⟨ps, ?_, hlast⟩, hbinary, ?_⟩, ?_⟩
      · rw [hstep]
        exact hfpga ▸ hwhole
      · intro _ _ hnonzero
        rw [hwarn] at hnonzero
        exact absurd hzero hnonzero
      · exact (or_iff_left fun hsignals => hsignals.2.1 hzero).symm
    · have hone : f.dev.nios.sysWarn.fault = 1 := h.binary.fault.resolve_left hfault
      let sends : List Send := .setLaserParamter Setting.laserFreq.command f.dev.nios.sysWarn.fault :: more
      refine ⟨f.dev.nios.sysWarn.fault, ⟨⟨ps ++ sends.map Send.stream, ?_, ?_⟩, hbinary, ?_⟩, ?_⟩
      · rw [hstep]
        show Stream.Whole f.dev.signalAlarms.fpga _
        rw [hsends]
        exact hwhole.append (whole_sends _)
      · rw [List.map_cons, ← List.singleton_append, ← List.append_assoc, Stream.last_append_of_ne]
        · exact Stream.last_concat ps (Send.stream_low _)
        · intro q hq
          obtain ⟨send, hsend, rfl⟩ := List.mem_map.mp hq
          rw [Send.stream_low]
          exact hother send hsend
      · intro _ _ _
        rw [hone]
        rfl
      · rw [hone]
        exact iff_of_true rfl (Or.inr ⟨hplace, hfault, input, rfl⟩)
  · have hquiet : ¬ f.Signals event := fun hsignals => hchain ⟨hsignals.1, hsignals.2.2⟩
    obtain ⟨sends, hsends, hother⟩ := f.on_only board event hfree
      fun hplace input hevent => hchain ⟨hplace, input, hevent⟩
    refine ⟨w, ⟨⟨ps ++ sends.map Send.stream, ?_, ?_⟩, hbinary, ?_⟩, (or_iff_left hquiet).symm⟩
    · rw [hsends]
      exact hwhole.append (whole_sends _)
    · rw [Stream.last_append_of_ne]
      · exact hlast
      · intro q hq
        obtain ⟨send, hsend, rfl⟩ := List.mem_map.mp hq
        rw [Send.stream_low]
        exact hother send hsend
    · intro hpublish halarms hfault
      cases event with
      | timer port =>
          obtain ⟨hplace, hnios⟩ := timer_keeps board f port
          rw [hplace] at hpublish halarms
          rw [hnios] at hfault
          exact h.bit hpublish halarms hfault
      | main input =>
          obtain ⟨hreceive, htelegram⟩ := main_place board f input
          rw [f.on_sysWarn board _ fun hplace => hpublish (hreceive hplace)] at hfault
          exact h.bit (fun hplace => halarms (htelegram hplace))
            (fun hplace => hchain ⟨hplace, input, rfl⟩) hfault

variable {board}

theorem announced_boot (eeprom : Eeprom) (flash : φ) (stack : ℕ → Byte) (buf devPnNum : Bytes)
    (port : Byte) :
    (boot eeprom flash stack buf devPnNum port).Announced
      ((boot eeprom flash stack buf devPnNum port).dev.nios.sysPara.word .laserFreq) := by
  obtain ⟨regions, hwhole⟩ := boot_whole eeprom flash stack buf devPnNum port
  refine ⟨⟨_, hwhole, ?_⟩, ?_, ?_⟩
  · rw [Stream.last_append, last_initPackets]
    rfl
  · exact ⟨Or.inl rfl, Or.inl rfl, Or.inl rfl, Or.inl rfl⟩
  · intro _ _ hfault
    exact absurd (show Nios.initial.sysWarn.fault = 0 by decide) hfault

/-- The last `LASER_FREQ` word of a run. Its bit 0 is set from the first alarm on. -/
theorem announced_run {f : Firmware φ} {w : Word} (h : f.Announced w) {events : List Event}
    (hfree : Machine.Along (Firmware.on board) (fun f event => ¬ f.TakesLaserFreq event) f events) :
    ∃ w', (f.run board events).Announced w' ∧
      (w'.getLsbD 0 = true ↔
        w.getLsbD 0 = true ∨ Machine.Sometime (Firmware.on board) Signals f events) :=
  Machine.Along.record (fun _ _ _ hannounced hevent => hannounced.on board hevent) hfree h

theorem Announced.lastData {f : Firmware φ} {w : Word} (h : f.Announced w) :
    Stream.lastData Setting.laserFreq.command f.dev.fpga = some [w] := by
  obtain ⟨ps, hwhole, hlast⟩ := h.sent
  rw [hwhole.lastData, hlast]

/-- At the top of the loop the word has the alarm. -/
theorem Announced.bit_of_top {f : Firmware φ} {w : Word} (h : f.Announced w) (htop : f.place = .top) :
    f.dev.nios.sysWarn.fault ≠ 0 → w.getLsbD 0 = true :=
  h.bit (by rw [htop]; nofun) (by rw [htop]; nofun)

theorem and_one_eq (w : Word) : w &&& 1 = if w.getLsbD 0 = true then 1 else 0 := by
  rw [show w &&& 1 = _ from BitVec.and_one_eq_setWidth_ofBool_getLsbD]
  cases w.getLsbD 0 <;> rfl

/-! ### A run in which the alarms go out -/

/-- `PC_SET_DUST_THRESHOLD` with 700, in the buffer of the socket. -/
def dustThresholdPacket : Memory := fun a =>
  literal [0x12, 0x34, 0x40, 0x11, 0, 0, 0, 4, 0, 0, 0x02, 0xbc, 0xee, 0xee, 0xee, 0xee] a.toNat

/-- A status frame with a dust value of 600. -/
def dustyFrame : List Word := Kind.status.header ++ [100, 500, 600, 0, 100, 0xeeeeeeee]

/-- A turn of the loop with that frame, behind the statements for the first regions. -/
def dustyTurn : List Event := List.replicate 13 (.main ⟨.other, dustyFrame, 0x0f⟩)

/-- Five frames over the threshold, the packet, and five frames under it. -/
def dustEvents : List Event :=
  List.replicate 18 (.main ⟨.other, [], 0x0f⟩) ++ (List.replicate 5 dustyTurn).flatten ++
    [.main ⟨.established dustThresholdPacket 16, [], 0x0f⟩] ++ dustyTurn ++
    (List.replicate 4 dustyTurn).flatten

instance : ∀ (f : Firmware φ) (event : Event), Decidable (f.TakesLaserFreq event)
  | _, .timer _ => isFalse id
  | ⟨_, .parsing .., _, _, _⟩, .main _ => inferInstanceAs (Decidable (_ ∧ _))
  | ⟨_, .tim561Run _, _, _, _⟩, .main _ | ⟨_, .receive, _, _, _⟩, .main _
  | ⟨_, .publish, _, _, _⟩, .main _ | ⟨_, .signalAlarms, _, _, _⟩, .main _
  | ⟨_, .readIo, _, _, _⟩, .main _ | ⟨_, .compareIo, _, _, _⟩, .main _
  | ⟨_, .raiseFlag, _, _, _⟩, .main _ | ⟨_, .takeValue, _, _, _⟩, .main _
  | ⟨_, .keepIo, _, _, _⟩, .main _ | ⟨_, .reportPowerUp, _, _, _⟩, .main _
  | ⟨_, .testFlag, _, _, _⟩, .main _ | ⟨_, .clearFlag, _, _, _⟩, .main _
  | ⟨_, .load _, _, _, _⟩, .main _ | ⟨_, .reportIo, _, _, _⟩, .main _ => isFalse id

/-- The alarm is on behind the five frames. -/
theorem dustEvents_on :
    Machine.Along (Firmware.on sRI1Board) (fun f event => ¬ f.TakesLaserFreq event)
        clearedBoot (dustEvents.take 83) ∧
      (clearedBoot.run sRI1Board (dustEvents.take 83)).place = .top ∧
      (clearedBoot.run sRI1Board (dustEvents.take 83)).dev.nios.sysWarn.fault ≠ 0 := by
  decide +kernel

/-! ### The last word -/

/-- **The fault output.** In a run without `LASER_FREQ` from the PC, bit 0 of the last `LASER_FREQ` word
is right at the top of the loop exactly if an alarm is on, or none has been on since power up and the
word of `init_fpga_sys` has the bit clear. -/
theorem tracks_iff (eeprom : Eeprom) (flash : φ) (stack : ℕ → Byte) (buf devPnNum : Bytes)
    (port : Byte) (events : List Event)
    (hfree : Machine.Along (Firmware.on board) (fun f event => ¬ f.TakesLaserFreq event)
      (boot eeprom flash stack buf devPnNum port) events)
    (htop : ((boot eeprom flash stack buf devPnNum port).run board events).place = .top) :
    ((boot eeprom flash stack buf devPnNum port).run board events).Tracks ↔
      ((boot eeprom flash stack buf devPnNum port).run board events).dev.nios.sysWarn.fault ≠ 0 ∨
        (((boot eeprom flash stack buf devPnNum port).dev.nios.sysPara.word .laserFreq).getLsbD 0 =
            false ∧
          ¬ Machine.Sometime (Firmware.on board) Signals
            (boot eeprom flash stack buf devPnNum port) events) := by
  obtain ⟨w, hannounced, hbit⟩ :=
    announced_run (announced_boot eeprom flash stack buf devPnNum port) hfree
  have htracks : ((boot eeprom flash stack buf devPnNum port).run board events).Tracks ↔
      w &&& 1 = ((boot eeprom flash stack buf devPnNum port).run board events).dev.nios.sysWarn.fault := by
    constructor
    · rintro ⟨w', hlast, heq⟩
      rw [hannounced.lastData, Option.some.injEq, List.cons.injEq] at hlast
      rwa [← hlast.1] at heq
    · exact fun heq => ⟨w, hannounced.lastData, heq⟩
  have hcarried := hannounced.bit_of_top htop
  rw [htracks, and_one_eq]
  rcases hannounced.binary.fault with hfault | hfault <;> rw [hfault] at hcarried ⊢
  · rw [← Bool.not_eq_true, ← not_or, ← hbit]
    by_cases hw : w.getLsbD 0 = true <;> simp [hw]
  · rw [if_pos (hcarried (by decide))]
    simp

/-- With the alarm on, behind the five frames. -/
theorem tracks_dusty : (clearedBoot.run sRI1Board (dustEvents.take 83)).Tracks := by
  obtain ⟨hfree, htop, hon⟩ := dustEvents_on
  unfold clearedBoot at hfree htop hon ⊢
  exact (tracks_iff _ _ _ _ _ _ _ hfree htop).mpr (Or.inl hon)

/-- **The alarms go out unnoticed.** -/
theorem not_tracks_dust :
    ¬ ∀ events : List Event,
      Machine.Along (Firmware.on sRI1Board) (fun f event => ¬ f.TakesLaserFreq event)
        clearedBoot events →
      (clearedBoot.run sRI1Board events).place = .top → (clearedBoot.run sRI1Board events).Tracks := by
  intro hall
  obtain ⟨hbefore, hthere, hon⟩ := dustEvents_on
  obtain ⟨hfree, htop, hout⟩ :
      Machine.Along (Firmware.on sRI1Board) (fun f event => ¬ f.TakesLaserFreq event)
          clearedBoot dustEvents ∧
        (clearedBoot.run sRI1Board dustEvents).place = .top ∧
        (clearedBoot.run sRI1Board dustEvents).dev.nios.sysWarn.fault = 0 := by
    decide +kernel
  -- the bit is not taken back when the alarm goes out
  obtain ⟨w₀, hboot⟩ : ∃ w₀, clearedBoot.Announced w₀ := ⟨_, announced_boot _ _ _ _ _ _⟩
  obtain ⟨w, hannounced, -⟩ := announced_run hboot hbefore
  have hbit := hannounced.bit_of_top hthere hon
  have hsplit := List.take_append_drop 83 dustEvents
  have hafter : Machine.Along (Firmware.on sRI1Board) (fun f event => ¬ f.TakesLaserFreq event)
      (clearedBoot.run sRI1Board (dustEvents.take 83)) (dustEvents.drop 83) := by
    rw [← hsplit] at hfree
    exact (Machine.Along.append_iff.1 hfree).2
  obtain ⟨w', hlater, hkept⟩ := announced_run hannounced hafter
  have hend : (clearedBoot.run sRI1Board dustEvents).Announced w' := by
    rw [← hsplit]
    unfold run at hlater ⊢
    rwa [List.foldl_append]
  obtain ⟨w'', hlast, htracks⟩ := hall dustEvents hfree htop
  rw [hend.lastData] at hlast
  cases hlast
  rw [hout, and_one_eq, if_pos (hkept.2 (Or.inl hbit))] at htracks
  exact absurd htracks (by decide)

end Firmware

end SingleScan
