import SingleScan.Proof.MainLoop
import SingleScan.Proof.Update2Nios

/-!
# The status record

The signals of the FPGA that go up in a status frame, from the 256 bits of `fpga_status` to the fields
that the parser sets.
-/

namespace SingleScan

open Nios Update2Nios

namespace Status

variable (v : Status)

/-- The words that the payload of a status frame is made of. -/
def cycleWord : Word := BitVec.ofBool v.motorBlock ++ v.cycleCnt.extractLsb' 0 31

def zeroWord : Word := (0 : BitVec 16) ++ v.zeroValue

def dustWord : Word := (0 : BitVec 22) ++ v.dustCnt

def tempWord : Word := BitVec.ofBool v.uploadEn ++ v.sysTemp.extractLsb' 0 31

def pulseWord : Word := v.zeroPulseWidth.setWidth 32

theorem extract_low {m n : ℕ} (hi : BitVec m) (lo : BitVec n) {start len : ℕ} (h : start + len ≤ n) :
    (hi ++ lo).extractLsb' start len = lo.extractLsb' start len :=
  BitVec.extractLsb'_append_eq_of_add_le h

theorem extract_high {m n : ℕ} (hi : BitVec m) (lo : BitVec n) {start len : ℕ} (h : n ≤ start) :
    (hi ++ lo).extractLsb' start len = hi.extractLsb' (start - n) len :=
  BitVec.extractLsb'_append_eq_of_le h

theorem extract_all {n : ℕ} (x : BitVec n) : x.extractLsb' 0 n = x := BitVec.extractLsb'_eq_self

theorem statusWord_zero : statusWord v.fpgaStatus 0 = some v.cycleWord := by
  rw [statusWord, fpgaStatus, extract_low _ _ (by decide), extract_all]
  rfl

theorem statusWord_one : statusWord v.fpgaStatus 1 = some v.zeroWord := by
  rw [statusWord, fpgaStatus, extract_high _ _ (by decide), extract_low _ _ (by decide), extract_all]
  rfl

theorem statusWord_two : statusWord v.fpgaStatus 2 = some v.dustWord := by
  rw [statusWord, fpgaStatus, extract_high _ _ (by decide), extract_high _ _ (by decide),
    extract_low _ _ (by decide), extract_all]
  rfl

theorem statusWord_three : statusWord v.fpgaStatus 3 = some v.tempWord := by
  rw [statusWord, fpgaStatus, extract_high _ _ (by decide), extract_high _ _ (by decide),
    extract_high _ _ (by decide), extract_low _ _ (by decide), extract_all]
  rfl

theorem statusWord_four : statusWord v.fpgaStatus 4 = some v.pulseWord := by
  rw [statusWord, fpgaStatus, extract_high _ _ (by decide), extract_high _ _ (by decide),
    extract_high _ _ (by decide), extract_high _ _ (by decide), extract_low _ _ (by decide),
    extract_high _ _ (by decide), extract_low _ _ (by decide), extract_all]
  rfl

/-- The five payload words, in the order in which they are sent. -/
def payloadWords : List Word := [v.cycleWord, v.zeroWord, v.dustWord, v.tempWord, v.pulseWord]

theorem frame_payload : v.frame.payload = v.payloadWords := by
  change [0, 1, 2, 3, 4].filterMap (statusWord v.fpgaStatus) = v.payloadWords
  simp only [List.filterMap_cons, statusWord_zero, statusWord_one, statusWord_two, statusWord_three,
    statusWord_four, List.filterMap_nil, payloadWords]

/-! ### What the parser makes of the words -/

theorem append_zeros {m n : ℕ} (x : BitVec n) : (0#m ++ x : BitVec (m + n)) = x.setWidth (m + n) := by
  rw [BitVec.setWidth_eq_append (Nat.le_add_left n m)]
  ext i hi
  simp [BitVec.getElem_append]

theorem and_ffff (w : Word) : w &&& 0xffff = (w.setWidth 16).setWidth 32 :=
  (BitVec.and_setWidth_allOnes 16 16 w).trans (append_zeros (w.setWidth 16))

theorem append_setWidth {k m n : ℕ} (hi : BitVec m) (lo : BitVec n) (h : k ≤ n) :
    (hi ++ lo).setWidth k = lo.setWidth k := by
  rw [BitVec.setWidth_append, dif_pos h]

theorem zeroWord_and : v.zeroWord &&& 0xffff = v.zeroValue.setWidth 32 := by
  have hlow : v.zeroWord.setWidth 16 = v.zeroValue.setWidth 16 := append_setWidth _ _ (Nat.le_refl 16)
  rw [and_ffff, hlow, BitVec.setWidth_eq]

theorem dustWord_eq : v.dustWord = v.dustCnt.setWidth 32 := append_zeros (m := 22) v.dustCnt

theorem tempWord_and : v.tempWord &&& 0xffff = (v.sysTemp.setWidth 16).setWidth 32 := by
  have hlow : v.tempWord.setWidth 16 = (v.sysTemp.extractLsb' 0 31).setWidth 16 :=
    append_setWidth _ _ (by decide)
  have htemp : (v.sysTemp.extractLsb' 0 31).setWidth 16 = v.sysTemp.setWidth 16 := by
    ext i hi
    simp [show i < 31 by omega]
  rw [and_ffff, hlow, htemp]

theorem tempWord_flag : v.tempWord.getLsbD 31 = v.uploadEn := by
  have htop : v.tempWord.getLsbD 31 = (BitVec.ofBool v.uploadEn).getLsbD 0 :=
    BitVec.getLsbD_append
  rw [htop]
  cases v.uploadEn <;> rfl

/-- The parser shows these signals: each field of `SysPara` that a status frame sets has the value of
its own signal. -/
structure Shown (s : Nios) : Prop where
  motorRealSpeed : s.sysPara.word .motorRealSpeed =
    BitVec.ofBool v.motorBlock ++ v.cycleCnt.extractLsb' 0 31
  zeroValue : s.sysPara.word .zeroValue = v.zeroValue.setWidth 32
  placeholer1 : s.sysPara.word .placeholer1 = v.dustCnt.setWidth 32
  sysTemp : s.sysPara.word .sysTemp = (v.sysTemp.setWidth 16).setWidth 32
  updatePosFlag : s.sysPara.updatePosFlag = v.uploadEn
  zeroPulseWidth : s.sysPara.word .zeroPulseWidth = v.zeroPulseWidth.setWidth 32

variable {v}

/-- A decoded frame with the payload of these signals shows them. -/
theorem shown_of_decodes {f : Frame} {s s' : Nios} (h : Decodes f s s') (hkind : f.kind = .status)
    (hpayload : f.payload = v.payloadWords) : v.Shown s' := by
  have hstored := h.stored
  unfold Stored at hstored
  rw [hkind] at hstored
  obtain ⟨cycle, zero, dust, temp, pulse, hwords, hcycle, hzero, hdust, htemp, hflag, hpulse⟩ :=
    hstored
  rw [hpayload, payloadWords] at hwords
  simp only [List.cons.injEq, and_true] at hwords
  obtain ⟨rfl, rfl, rfl, rfl, rfl⟩ := hwords
  exact
    { motorRealSpeed := hcycle
      zeroValue := hzero.trans v.zeroWord_and
      placeholer1 := hdust.trans v.dustWord_eq
      sysTemp := htemp.trans v.tempWord_and
      updatePosFlag := hflag.trans v.tempWord_flag
      zeroPulseWidth := hpulse }

/-- What `update2nios` sends as a status frame while the signals stand is that frame. -/
theorem words_of_sends {input : ℕ → Update2Nios.Input} {t₀ n : ℕ} {f : Frame} (h : Sends input t₀ n f)
    (hkind : f.kind = .status)
    (hstand : ∀ t, t₀ ≤ t → t < t₀ + n → (input t).fpgaStatus = v.fpgaStatus) :
    f.words = v.frame.words := by
  have hcarries := h.carries
  rw [hkind] at hcarries
  have hlength : f.payload.length = statusDataLen := by rw [f.complete, hkind]; rfl
  have hpayload : f.payload = v.frame.payload := by
    rw [frame_payload]
    refine List.ext_getElem (hlength.trans rfl) fun j hj _ => ?_
    obtain ⟨_, ⟨t, hle, hlt, rfl⟩, hword⟩ := hcarries.2 j hj
    rw [hstand t hle hlt] at hword
    rw [hlength] at hj
    have hj' : j = 0 ∨ j = 1 ∨ j = 2 ∨ j = 3 ∨ j = 4 := by unfold statusDataLen at hj; omega
    rcases hj' with rfl | rfl | rfl | rfl | rfl
    · exact Option.some.inj (hword.symm.trans v.statusWord_zero)
    · exact Option.some.inj (hword.symm.trans v.statusWord_one)
    · exact Option.some.inj (hword.symm.trans v.statusWord_two)
    · exact Option.some.inj (hword.symm.trans v.statusWord_three)
    · exact Option.some.inj (hword.symm.trans v.statusWord_four)
  rw [Frame.words, Frame.words, hpayload, hkind]
  rfl

/-- **The status record.** Whatever the signals are, as long as no payload word of their frame ends a
frame: `update2nios` sends that frame, and the call of the parser that takes it shows the signals. -/
theorem status_agrees (v : Status) (nios : Nios) {frames : List Frame}
    (hclean : ∀ f ∈ frames, f.Clean) {m : ℕ} (hframe : frames[m]? = some v.frame)
    {turns : List Turn}
    (hread : ((Session.start nios (frames.flatMap Frame.words)).run turns).unread = []) :
    (∀ (input : ℕ → Update2Nios.Input) (t₀ n : ℕ) (f : Frame), Sends input t₀ n f → f.kind = .status →
        (∀ t, t₀ ≤ t → t < t₀ + n → (input t).fpgaStatus = v.fpgaStatus) →
        f.words = v.frame.words) ∧
      ∃ r : Report, ((Session.start nios (frames.flatMap Frame.words)).run turns).reports[m]? =
        some r ∧ v.Shown r.after := by
  refine ⟨fun input t₀ n f hsends hkind hstand => words_of_sends hsends hkind hstand, ?_⟩
  obtain ⟨k, hprogress⟩ := progress_run hclean (progress_start nios frames) turns
  obtain ⟨k', hdecoded, -, hall⟩ := hprogress.transparent
  rw [List.take_of_length_le (hall hread)] at hdecoded
  obtain ⟨hm, hget⟩ := List.getElem?_eq_some_iff.mp hframe
  have hm' := hdecoded.length_eq ▸ hm
  have hstep := hdecoded.get hm hm'
  refine ⟨_, List.getElem?_eq_getElem hm', shown_of_decodes hstep ?_ ?_⟩
  · rw [List.get_eq_getElem, hget]
    rfl
  · rw [List.get_eq_getElem, hget]
    exact v.frame_payload

/-- A motor that is blocked, in a warm device. -/
def someStatus : Status where
  zeroPulseWidth := 0x123
  alarmIo := 5
  uploadEn := true
  sysTemp := 0x20c1
  dustCnt := 0x3ff
  zeroValue := 0xfffe
  motorBlock := true
  cycleCnt := 0x7fffffff

theorem clean_someStatus : ∀ f ∈ [someStatus.frame], f.Clean := by
  intro f hf
  rw [List.mem_singleton.mp hf, Frame.Clean, frame_payload, payloadWords]
  simp only [List.forall_mem_cons, List.not_mem_nil, false_imp_iff, implies_true, and_true]
  refine ⟨by decide, by decide, by decide, by decide, by decide⟩

theorem status_agrees_someStatus :
    ((Session.start zeroed ([someStatus.frame].flatMap Frame.words)).run
        [receiving 8]).unread = [] ∧
      ∃ r : Report, ((Session.start zeroed ([someStatus.frame].flatMap Frame.words)).run
        [receiving 8]).reports[0]? = some r ∧ someStatus.Shown r.after := by
  have hread : ((Session.start zeroed ([someStatus.frame].flatMap Frame.words)).run
      [receiving 8]).unread = [] := by decide +kernel
  exact ⟨hread, (status_agrees someStatus zeroed clean_someStatus rfl hread).2⟩

end Status

end SingleScan
