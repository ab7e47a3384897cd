import SingleScan.Lib.Latch
import SingleScan.Proof.Fault

/-!
# What a status frame does to the warnings

`fpga2nios_parse` stores the words of a status frame before it has seen the closing word, so that a damaged
frame counts as a sample, too. It records the sample of an alarm only while the alarm is off, so that an
alarm that is on stays on.
-/

namespace SingleScan

open Fpga2Nios

/-- The payload of a status frame. -/
structure StatusWords where
  cycle : Word
  zero : Word
  dust : Word
  temp : Word
  pulse : Word

def StatusWords.words (x : StatusWords) : List Word := [x.cycle, x.zero, x.dust, x.temp, x.pulse]

/-- The window of samples behind a status frame. -/
def SysWarn.record (warn : SysWarn) (x : StatusWords) : SysWarn :=
  let len : Fin 5 := ⟨warn.len.toNat % 5, Nat.mod_lt _ (by decide)⟩
  { warn with
    len := warn.len % 5 + 1
    motorCycleCnt :=
      if warn.motorLowSpeedAlarm = 0 then Function.update warn.motorCycleCnt len x.cycle
      else warn.motorCycleCnt
    zeroValue :=
      if warn.ldNotWorkAlarm = 0 then Function.update warn.zeroValue len x.pulse
      else warn.zeroValue
    dustCnt :=
      if warn.windowDustAlarm = 0 then Function.update warn.dustCnt len x.dust else warn.dustCnt
    tempValue :=
      if warn.tempOutAlarm = 0 then Function.update warn.tempValue len (x.temp &&& 0xffff)
      else warn.tempValue }

/-- The four checks. -/
def SysWarn.process (warn : SysWarn) (para : SysPara) : SysWarn :=
  processSysTempWaring (processWindowDustWaring para (processLdWaring (processMotorWaring para warn)))

namespace Nios

/-- The queue holds a status frame with this payload and this closing word, behind words that begin no
frame. -/
def HoldsStatus (s : Nios) (x : StatusWords) (closing : Word) : Prop :=
  ∃ pre head len rest log, (∀ w ∈ pre, w.high ≠ frameHead) ∧ head.high = frameHead ∧
    head.low = upFpgaStatus ∧ Holds s (pre ++ head :: len :: (x.words ++ closing :: rest)) log

variable {s : Nios} {x : StatusWords} {closing : Word}

/-- The memory when the closing word has been taken. -/
def recorded (s : Nios) : Nios :=
  let s := { s with sysWarn := { s.sysWarn with len := s.sysWarn.len % 5 } }
  let s := s.takeStatus
  let s := { s with sysWarn := { s.sysWarn with len := s.sysWarn.len + 1 } }
  let (recvData, s) := s.queuePop
  { s with fpga2niosData := { s.fpga2niosData with checksum := recvData } }

theorem parseStatus_sysWarn (s : Nios) :
    s.parseStatus.sysWarn = s.recorded.processWarnings.sysWarn := sendWarning_sysWarn _

theorem recorded_holds {ws : List Word} {log : List (Word × Bool)}
    (h : Holds s (x.words ++ closing :: ws) log) :
    s.recorded.sysWarn = s.sysWarn.record x ∧ s.recorded.fpga2niosData.checksum = closing := by
  obtain ⟨cycle, zero, dust, temp, pulse⟩ := x
  obtain ⟨rfl, h₁⟩ := Holds.queuePop (w := cycle) h
  obtain ⟨rfl, h₂⟩ := h₁.queuePop
  obtain ⟨rfl, h₃⟩ := h₂.queuePop
  obtain ⟨rfl, h₄⟩ := h₃.queuePop
  obtain ⟨rfl, h₅⟩ := h₄.queuePop
  obtain ⟨rfl, -⟩ := h₅.queuePop
  refine ⟨?_, rfl⟩
  have hmod : (s.sysWarn.len % 5).toNat % 5 = s.sysWarn.len.toNat % 5 := by
    rw [BitVec.toNat_umod]
    exact Nat.mod_mod _ _
  simp only [recorded, takeStatus, SysWarn.record, hmod]
  rfl

theorem recorded_word (s : Nios) {m : SysWord} (hm : m ∉ statusWords) :
    s.recorded.sysPara.word m = s.sysPara.word m :=
  takeStatus_word { s with sysWarn := { s.sysWarn with len := s.sysWarn.len % 5 } } hm

theorem process_congr {para para' : SysPara} (warn : SysWarn)
    (hmotor : para.word .motorEnable = para'.word .motorEnable)
    (hdust : para.word .dustThreshold = para'.word .dustThreshold) :
    warn.process para = warn.process para' := by
  unfold SysWarn.process processMotorWaring processWindowDustWaring
  rw [hmotor, hdust]

/-- **A status frame.** -/
theorem parse_status (h : HoldsStatus s x closing) :
    s.fpga2niosParse.sysWarn =
      if closing = 0xeeeeeeee ∧ (s.sysWarn.record x).len = 5 then
        (s.sysWarn.record x).process s.sysPara
      else s.sysWarn.record x := by
  obtain ⟨pre, head, len, rest, log, hpre, hhead, hlow, hholds⟩ := h
  obtain ⟨hcommand, -, hbody⟩ := parseHeader_holds hpre hhead hholds
  have hsame := parseHeader_sameStore s
  have hparse := fpga2niosParse_status (hcommand.trans hlow)
  obtain ⟨hrecord, hclosing⟩ := recorded_holds hbody
  rw [hsame.sysWarn] at hrecord
  have hprocess : s.parseHeader.recorded.sysWarn.process s.parseHeader.recorded.sysPara =
      (s.sysWarn.record x).process s.sysPara := by
    rw [hrecord]
    refine process_congr _ ?_ ?_
    · rw [recorded_word _ (by decide), hsame.sysPara]
    · rw [recorded_word _ (by decide), hsame.sysPara]
  rw [hparse, parseStatus_sysWarn, processWarnings, hclosing, hrecord]
  by_cases hgood : closing = 0xeeeeeeee ∧ (s.sysWarn.record x).len = 5
  · rw [if_pos hgood, if_pos hgood, ← hprocess, hrecord]
    rfl
  · rw [if_neg hgood, if_neg hgood, hrecord]

/-! ### Damaged frames -/

/-- `fpga2nios_parse` leaves the parameters and the warnings as they were. -/
def Ignores (s : Nios) : Prop :=
  s.fpga2niosParse.sysPara = s.sysPara ∧ s.fpga2niosParse.sysWarn = s.sysWarn

theorem toNat_record_len (warn : SysWarn) (x : StatusWords) :
    (warn.record x).len.toNat = warn.len.toNat % 5 + 1 := by
  have hmod : (warn.len % 5).toNat = warn.len.toNat % 5 := BitVec.toNat_umod
  change (warn.len % 5 + 1).toNat = warn.len.toNat % 5 + 1
  rw [BitVec.toNat_add, hmod]
  exact Nat.mod_eq_of_lt (by simp; omega)

theorem record_ne (warn : SysWarn) (x : StatusWords) : warn.record x ≠ warn := by
  intro heq
  have hlen := toNat_record_len warn x
  rw [heq] at hlen
  generalize warn.len.toNat = n at hlen
  omega

/-- **A damaged frame** is not ignored, whatever it carries. -/
theorem damaged_not_ignored (h : HoldsStatus s x closing) (hdamaged : closing ≠ 0xeeeeeeee) :
    ¬ Ignores s := by
  rintro ⟨-, hwarn⟩
  rw [parse_status h, if_neg fun hgood => hdamaged hgood.1] at hwarn
  exact record_ne s.sysWarn x hwarn

/-- The memory with a frame in the queue. -/
def withFrame (s : Nios) (x : StatusWords) (closing : Word) : Nios :=
  { s with laserDataQueue := Queue.holding (0x1234c100 :: 5 :: (x.words ++ [closing])) }

theorem holdsStatus_withFrame (s : Nios) (x : StatusWords) (closing : Word) :
    HoldsStatus (s.withFrame x closing) x closing := by
  have hroom : (0x1234c100 :: 5 :: (x.words ++ [closing])).length < 2048 :=
    Nat.lt_of_sub_eq_succ rfl
  exact ⟨[], 0x1234c100, 5, [], s.pops, List.forall_mem_nil _, by decide, by decide,
    Queue.valid_holding hroom, Queue.contents_holding hroom, rfl⟩

theorem zeros_not_ignored : ¬ Ignores (Nios.initial.withFrame ⟨0, 0, 0, 0, 0⟩ 0) :=
  damaged_not_ignored (holdsStatus_withFrame _ _ _) (by decide)

theorem not_ignored_zeros :
    ¬ ∀ (s : Nios) (x : StatusWords) (closing : Word), HoldsStatus s x closing →
      closing ≠ 0xeeeeeeee → Ignores s := by
  intro hall
  have hholds := holdsStatus_withFrame Nios.initial ⟨0, 0, 0, 0, 0⟩ 0
  obtain ⟨-, hwarn⟩ := hall _ _ _ hholds (by decide)
  rw [parse_status hholds, if_neg fun hgood => absurd hgood.1 (by decide)] at hwarn
  exact record_ne _ _ hwarn

end Nios

/-! ### The alarms -/

/-- The alarms of `sys_warn` that have a window of samples. -/
inductive Alarm
  | motorLowSpeed | ldNotWork | windowDust | tempOut
deriving DecidableEq

namespace Alarm

/-- The alarm in `sys_warn`. -/
def value : Alarm → SysWarn → Word
  | motorLowSpeed => SysWarn.motorLowSpeedAlarm
  | ldNotWork => SysWarn.ldNotWorkAlarm
  | windowDust => SysWarn.windowDustAlarm
  | tempOut => SysWarn.tempOutAlarm

/-- Its samples in `sys_warn`. -/
def samples : Alarm → SysWarn → Fin 5 → Word
  | motorLowSpeed => SysWarn.motorCycleCnt
  | ldNotWork => SysWarn.zeroValue
  | windowDust => SysWarn.dustCnt
  | tempOut => SysWarn.tempValue

/-- Its sample in a status frame. -/
def sample : Alarm → StatusWords → Word
  | motorLowSpeed, x => x.cycle
  | ldNotWork, x => x.pulse
  | windowDust, x => x.dust
  | tempOut, x => x.temp &&& 0xffff

/-- A sample is out of its limits. -/
def Out (threshold : Word) : Alarm → Word → Prop
  | motorLowSpeed, w => motorLowSpeedValue.toNat ≤ w.toNat
  | ldNotWork, w => w.toNat < ldNoWorkValue.toNat
  | windowDust, w => threshold.toNat < w.toNat
  | tempOut, w => Fpga2Nios.tempOut w = 1

/-- What turns the alarm on: all five samples, but only the last temperature. -/
def Raises (threshold : Word) (a : Alarm) (f : Fin 5 → Word) : Prop :=
  if a = tempOut then a.Out threshold (f (Fin.last 4)) else ∀ i, a.Out threshold (f i)

variable {a : Alarm} {warn : SysWarn} {x : StatusWords} {para : SysPara} {threshold : Word}

theorem raises_of_out {f : Fin 5 → Word} (h : ∀ i, a.Out threshold (f i)) : a.Raises threshold f := by
  unfold Raises
  split
  · exact h _
  · exact h

theorem value_record : a.value (warn.record x) = a.value warn := by cases a <;> rfl

theorem samples_record : a.samples (warn.record x) =
    if a.value warn = 0 then
      Function.update (a.samples warn) ⟨warn.len.toNat % 5, Nat.mod_lt _ (by decide)⟩ (a.sample x)
    else a.samples warn := by
  cases a <;> rfl

theorem samples_process : a.samples (warn.process para) = a.samples warn := by cases a <;> rfl

theorem value_process (hmotor : para.word .motorEnable = enable)
    (hdust : para.word .dustThreshold = threshold) :
    a.value (warn.process para) = 1 ↔ a.Raises threshold (a.samples warn) := by
  cases a with
  | motorLowSpeed =>
      have hvalue : motorLowSpeed.value (warn.process para) =
          if ∀ i, motorLowSpeedValue.toNat ≤ (warn.motorCycleCnt i).toNat then 0x01 else 0x00 :=
        if_pos hmotor
      rw [hvalue]
      simp [Raises, Out, samples]
  | ldNotWork => simp [Raises, Out, samples, value, SysWarn.process, processSysTempWaring,
      processWindowDustWaring, processLdWaring, processMotorWaring]
  | windowDust => simp [Raises, Out, samples, value, SysWarn.process, processSysTempWaring,
      processWindowDustWaring, processLdWaring, processMotorWaring, hdust]
  | tempOut =>
      have hvalue : tempOut.value (warn.process para) = Fpga2Nios.tempOut (warn.tempValue 4) :=
        processSysTempWaring_temp _
      rw [hvalue]
      simp [Raises, Out, samples]

theorem value_binary (h : warn.Binary) : a.value warn = 0 ∨ a.value warn = 1 := by
  cases a
  · exact h.motor
  · exact h.ld
  · exact h.dust
  · exact h.temp

end Alarm

/-- Good status frames from power-up on, with the motor enabled and a constant threshold. Between two
frames `sys_warn` stays as it is, up to the alarm of the regions. -/
structure GoodRun (before : ℕ → Nios) (x : ℕ → StatusWords) (threshold : Word) : Prop where
  frame : ∀ n, (before n).HoldsStatus (x n) 0xeeeeeeee
  motor : ∀ n, (before n).sysPara.word .motorEnable = enable
  dust : ∀ n, (before n).sysPara.word .dustThreshold = threshold
  kept : ∀ n, { (before (n + 1)).sysWarn with regionAlarm := 0 } =
    { (before n).fpga2niosParse.sysWarn with regionAlarm := 0 }
  off : ∀ a : Alarm, a.value (before 0).sysWarn = 0
  start : (before 0).sysWarn.len = 0

section GoodRun

variable {before : ℕ → Nios} {x : ℕ → StatusWords} {threshold : Word}

theorem GoodRun.value_succ (h : GoodRun before x threshold) (a : Alarm) (n : ℕ) :
    a.value (before (n + 1)).sysWarn = a.value (before n).fpga2niosParse.sysWarn := by
  have hkept := congrArg a.value (h.kept n)
  cases a <;> exact hkept

theorem GoodRun.samples_succ (h : GoodRun before x threshold) (a : Alarm) (n : ℕ) :
    a.samples (before (n + 1)).sysWarn = a.samples (before n).fpga2niosParse.sysWarn := by
  have hkept := congrArg a.samples (h.kept n)
  cases a <;> exact hkept

theorem GoodRun.len_succ (h : GoodRun before x threshold) (n : ℕ) :
    (before (n + 1)).sysWarn.len = ((before n).sysWarn.record (x n)).len := by
  have hsame := congrArg SysWarn.len (h.kept n)
  have hkept : (before (n + 1)).sysWarn.len = (before n).fpga2niosParse.sysWarn.len := hsame
  rw [hkept, Nios.parse_status (h.frame n)]
  split <;> rfl

theorem GoodRun.len (h : GoodRun before x threshold) (n : ℕ) :
    (before n).sysWarn.len.toNat % 5 = n % 5 := by
  induction n with
  | zero => rw [h.start]; rfl
  | succ n ih => rw [h.len_succ, Nios.toNat_record_len, ih, Nat.mod_add_mod]

theorem GoodRun.parse (h : GoodRun before x threshold) (n : ℕ) :
    (before n).fpga2niosParse.sysWarn =
      if n % 5 + 1 = 5 then ((before n).sysWarn.record (x n)).process (before n).sysPara
      else (before n).sysWarn.record (x n) := by
  have hlen : ((before n).sysWarn.record (x n)).len = 5 ↔ n % 5 + 1 = 5 := by
    rw [← BitVec.toNat_inj, Nios.toNat_record_len, h.len]
    rfl
  rw [Nios.parse_status (h.frame n)]
  simp only [hlen, true_and]

theorem GoodRun.binary (h : GoodRun before x threshold) (a : Alarm) (n : ℕ) :
    a.value (before n).sysWarn = 0 ∨ a.value (before n).sysWarn = 1 := by
  induction n with
  | zero => exact .inl (h.off a)
  | succ n ih =>
      rw [h.value_succ, h.parse]
      split
      · exact Alarm.value_binary (process_binary _ _)
      · rwa [Alarm.value_record]

theorem GoodRun.samples_next (h : GoodRun before x threshold) (a : Alarm) (n : ℕ) :
    a.samples (before (n + 1)).sysWarn = a.samples ((before n).sysWarn.record (x n)) := by
  rw [h.samples_succ, h.parse]
  split
  · exact Alarm.samples_process
  · rfl

theorem GoodRun.recorder (h : GoodRun before x threshold) (a : Alarm) :
    Latch.Recorder 5 (a.Raises threshold) (fun n => a.sample (x n))
      (fun n => a.value (before n).sysWarn = 1) (fun n => a.samples (before n).sysWarn) where
  pos := by decide
  off := by
    rw [h.off a]
    decide
  frozen := by
    intro n hon
    have hne : a.value (before n).sysWarn ≠ 0 := by
      rw [hon]
      decide
    rw [h.samples_next, Alarm.samples_record, if_neg hne]
  recorded := by
    intro n hoff
    have hindex : (⟨(before n).sysWarn.len.toNat % 5, Nat.mod_lt _ (by decide)⟩ : Fin 5) =
        ⟨n % 5, Nat.mod_lt n (by decide)⟩ := Fin.ext (h.len n)
    rw [h.samples_next, Alarm.samples_record, if_pos ((h.binary a n).resolve_right hoff), hindex]
  inside := by
    intro n hmore
    rw [h.value_succ, h.parse, if_neg hmore, Alarm.value_record]
  ends := by
    intro n hlast
    rw [h.value_succ, h.samples_next, h.parse, if_pos hlast,
      Alarm.value_process (h.motor n) (h.dust n)]

theorem GoodRun.value_window (h : GoodRun before x threshold) (a : Alarm) (w : ℕ) :
    a.value (before (5 * w + 4)).fpga2niosParse.sysWarn = 1 ↔
      ∃ v ≤ w, a.Raises threshold fun i => a.sample (x (5 * v + i)) := by
  rw [← h.value_succ]
  exact (h.recorder a).alarm_iff w

/-- After every fifth frame an alarm says whether the last five samples were all out of their limits. -/
def Tracks (before : ℕ → Nios) (x : ℕ → StatusWords) (threshold : Word) : Prop :=
  ∀ (a : Alarm) (w : ℕ), a.value (before (5 * w + 4)).fpga2niosParse.sysWarn = 1 ↔
    ∀ i : Fin 5, a.Out threshold (a.sample (x (5 * w + i)))

/-- **Five in a row.** The alarms track their last five samples exactly if five samples out of their limits
are always followed by five more, and so is a fifth temperature out of its limits, which comes last in such
five. -/
theorem alarms_track_iff (h : GoodRun before x threshold) :
    Tracks before x threshold ↔
      ∀ (a : Alarm) (w : ℕ), a.Raises threshold (fun i => a.sample (x (5 * w + i))) →
        (∀ i : Fin 5, a.Out threshold (a.sample (x (5 * w + i)))) ∧
          ∀ i : Fin 5, a.Out threshold (a.sample (x (5 * (w + 1) + i))) := by
  refine forall_congr' fun a => ?_
  have hrecorder := (h.recorder a).follows_iff (fun f => ∀ i, a.Out threshold (f i))
    fun f hf => Alarm.raises_of_out hf
  have hafter (w : ℕ) : a.value (before (5 * (w + 1))).sysWarn =
      a.value (before (5 * w + 4)).fpga2niosParse.sysWarn := h.value_succ a (5 * w + 4)
  simp only [hafter] at hrecorder
  exact hrecorder

end GoodRun

/-- The memory before each frame, from power-up on. -/
def statusRun (x : ℕ → StatusWords) : ℕ → Nios
  | 0 => Nios.initial.withFrame (x 0) 0xeeeeeeee
  | n + 1 => (statusRun x n).fpga2niosParse.withFrame (x (n + 1)) 0xeeeeeeee

theorem goodRun_statusRun (x : ℕ → StatusWords) :
    GoodRun (statusRun x) x (SysPara.initial.word .dustThreshold) := by
  have hword (m : SysWord) (hm : m ∉ Nios.statusWords) (n : ℕ) :
      (statusRun x n).sysPara.word m = SysPara.initial.word m := by
    induction n with
    | zero => rfl
    | succ n ih => exact (Nios.fpga2niosParse_word (statusRun x n) hm).trans ih
  refine ⟨fun n => ?_, fun n => ?_, fun n => hword _ (by decide) n, fun _ => rfl, ?_, rfl⟩
  · cases n <;> exact Nios.holdsStatus_withFrame _ _ _
  · exact (hword _ (by decide) n).trans (by decide)
  · intro a
    cases a <;> rfl

/-- Everything is out of its limits, and nothing is. -/
def failing : StatusWords := ⟨100000000, 0, 0xffffffff, 100, 0⟩
def working : StatusWords := ⟨1000000, 0, 0, 25, 100⟩

theorem out_failing (a : Alarm) :
    a.Out (SysPara.initial.word .dustThreshold) (a.sample failing) := by
  cases a <;> unfold Alarm.Out <;> decide

theorem tracks_failing :
    Tracks (statusRun fun _ => failing) (fun _ => failing) (SysPara.initial.word .dustThreshold) :=
  (alarms_track_iff (goodRun_statusRun fun _ => failing)).2 fun a _ _ =>
    ⟨fun _ => out_failing a, fun _ => out_failing a⟩

/-- The motor fails in five frames and works again. -/
theorem not_tracks_recovered :
    ¬ ∀ (before : ℕ → Nios) (x : ℕ → StatusWords) (threshold : Word),
      GoodRun before x threshold → Tracks before x threshold := by
  intro hall
  let x (n : ℕ) : StatusWords := if n < 5 then failing else working
  have hrun := goodRun_statusRun x
  have hraised : Alarm.motorLowSpeed.value (statusRun x (5 * 1 + 4)).fpga2niosParse.sysWarn = 1 := by
    refine (hrun.value_window .motorLowSpeed 1).2 ⟨0, by decide, Alarm.raises_of_out fun i => ?_⟩
    have hfirst : x (5 * 0 + i) = failing := if_pos (by omega)
    rw [hfirst]
    exact out_failing .motorLowSpeed
  have hout := (hall _ _ _ hrun .motorLowSpeed 1).1 hraised 0
  exact absurd hout (by unfold Alarm.Out; decide)

end SingleScan
