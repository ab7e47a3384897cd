import SingleScan.Lib.Trace
import SingleScan.Motor

/-!
# The duty cycle of the motor

`feed` compares a correction with `duty_cnt` before it applies it to `high_cnt`, and `pwm_drive` ends a
phase where its counter is equal to a limit that may change while it counts. Both hold what they are
meant to hold exactly as long as no step goes past the value that is not looked at.
-/

namespace SingleScan

open Clocked

namespace Feed

def run (input : ℕ → Input) (c : ℕ) : State := trace step State.reset input c

/-- The width of the pulse is legal. -/
def Legal (s : State) : Prop :=
  0 < s.highCnt.toNat ∧ s.highCnt.toNat ≤ 550 ∧ s.lowCnt.toNat + s.highCnt.toNat = 5000

theorem legal_iff (s : State) : Legal s ↔ 0 < s.highCnt.toNat ∧ s.highCnt.toNat ≤ 550 := by
  have hlow : s.lowCnt.toNat = (5000 + (2 ^ 16 - s.highCnt.toNat)) % 2 ^ 16 := by
    rw [State.lowCnt, BitVec.toNat_sub, Nat.add_comm]
    rfl
  unfold Legal
  omega

/-- The correction for a difference between `cycle_cnt` and `expect_speed`. -/
def correction (fast slow : BitVec 32) : ℕ := (slow.toNat - fast.toNat) / 2 ^ 14

theorem toNat_correction {fast slow : BitVec 32} (h : fast.toNat < slow.toNat) :
    ((slow - fast) >>> 14).toNat = correction fast slow := by
  have hle : fast ≤ slow := BitVec.le_def.mpr h.le
  rw [BitVec.toNat_ushiftRight, BitVec.toNat_sub_of_le hle, Nat.shiftRight_eq_div_pow, correction]

/-- At the end of a control period, a correction that `duty_cnt` lets pass is smaller than `high_cnt`
where it is taken away, and leaves `high_cnt` at most 550 where it is added. -/
def Fits (s : State) (i : Input) : Prop :=
  s.timeoutFlag = true → i.cycleCnt ≠ 0 →
    (i.cycleCnt.toNat < s.expectSpeed.toNat →
      correction i.cycleCnt s.expectSpeed ≤ s.dutyCnt.toNat →
        correction i.cycleCnt s.expectSpeed < s.highCnt.toNat) ∧
    (s.expectSpeed.toNat < i.cycleCnt.toNat →
      correction s.expectSpeed i.cycleCnt ≤ s.dutyCnt.toNat →
        correction s.expectSpeed i.cycleCnt ≤ 550 - s.highCnt.toNat)

theorem preset_le (motorSpeed : BitVec 32) : (preset motorSpeed).1.toNat ≤ 480 := by
  unfold preset
  split <;> decide

theorem dutyCnt_le (input : ℕ → Input) (c : ℕ) : (run input c).dutyCnt.toNat ≤ 480 := by
  cases c with
  | zero => exact (by decide : State.reset.dutyCnt.toNat ≤ 480)
  | succ c => exact preset_le _

/-- One control period keeps a legal width exactly if the correction fits. -/
theorem step_legal_iff {s : State} (h : Legal s) (hduty : s.dutyCnt.toNat ≤ 480) (i : Input) :
    Legal (step s i) ↔ Fits s i := by
  obtain ⟨hpos, hmax⟩ := (legal_iff s).mp h
  rw [legal_iff]
  cases hflag : s.timeoutFlag with
  | false =>
      have hkeep : (step s i).highCnt = s.highCnt := by simp [step, hflag]
      rw [hkeep]
      exact iff_of_true ⟨hpos, hmax⟩ fun htrue => absurd (hflag.symm.trans htrue) (by decide)
  | true =>
      have hstep : (step s i).highCnt = s.control i.cycleCnt := by simp [step, hflag]
      rw [hstep]
      unfold State.control Fits
      by_cases hzero : i.cycleCnt = 0
      · rw [if_pos hzero]
        refine iff_of_true ?_ fun _ hne => absurd hzero hne
        have hunit : unitValue.toNat = 5 := rfl
        split
        · rw [BitVec.toNat_add, hunit]
          omega
        · exact ⟨hpos, hmax⟩
      · rw [if_neg hzero]
        simp only [hflag, hzero, ne_eq, not_false_eq_true, forall_const]
        rcases Nat.lt_trichotomy i.cycleCnt.toNat s.expectSpeed.toNat with hfast | heq | hslow
        · rw [if_pos hfast, toNat_correction hfast]
          by_cases hguard : s.dutyCnt.toNat < correction i.cycleCnt s.expectSpeed
          · rw [if_pos hguard]
            exact iff_of_true (by decide)
              ⟨fun _ hle => absurd hle (by omega), fun hlt => absurd hfast (by omega)⟩
          · have hsmall : correction i.cycleCnt s.expectSpeed % 2 ^ 16 =
                correction i.cycleCnt s.expectSpeed := Nat.mod_eq_of_lt (by omega)
            rw [if_neg hguard, BitVec.toNat_sub, BitVec.toNat_setWidth, toNat_correction hfast, hsmall]
            omega
        · rw [if_neg (by omega), if_neg (by omega)]
          exact iff_of_true ⟨hpos, hmax⟩ ⟨fun h => absurd h (by omega), fun h => absurd h (by omega)⟩
        · rw [if_neg (by omega), if_pos hslow, toNat_correction hslow]
          by_cases hguard : s.dutyCnt.toNat < correction s.expectSpeed i.cycleCnt
          · rw [if_pos hguard]
            exact iff_of_true (by decide)
              ⟨fun hlt => absurd hslow (by omega), fun _ hle => absurd hle (by omega)⟩
          · have hsmall : correction s.expectSpeed i.cycleCnt % 2 ^ 16 =
                correction s.expectSpeed i.cycleCnt := Nat.mod_eq_of_lt (by omega)
            rw [if_neg hguard, BitVec.toNat_add, BitVec.toNat_setWidth, toNat_correction hslow, hsmall]
            omega

theorem legal_reset : Legal State.reset := (legal_iff _).mpr (by decide)

/-- **The duty cycle** is legal in every clock exactly if every correction fits. -/
theorem duty_legal_iff (input : ℕ → Input) :
    (∀ c, Legal (run input c)) ↔ ∀ c, Fits (run input c) (input c) := by
  constructor
  · exact fun h c => (step_legal_iff (h c) (dutyCnt_le input c) (input c)).mp (h (c + 1))
  · intro h c
    induction c with
    | zero => exact legal_reset
    | succ c ih => exact (step_legal_iff ih (dutyCnt_le input c) (input c)).mpr (h c)

/-- Until the first control period is over, the timer runs down and the width stays. -/
theorem run_first_period (i : Input) {c : ℕ} (hc : c ≤ timeCntMax.toNat) :
    (run (fun _ => i) c).timeCnt.toNat + c = timeCntMax.toNat ∧
      (run (fun _ => i) c).highCnt = 460 := by
  induction c with
  | zero => exact ⟨rfl, rfl⟩
  | succ c ih =>
      obtain ⟨htime, hhigh⟩ := ih (by omega)
      have hrun : run (fun _ => i) (c + 1) = step (run (fun _ => i) c) i := rfl
      have hflag : (run (fun _ => i) c).timeoutFlag = false := by
        rw [State.timeoutFlag, beq_eq_false_iff_ne]
        intro hzero
        rw [hzero] at htime
        have : (0 : BitVec 32).toNat = 0 := rfl
        omega
      rw [hrun]
      refine ⟨?_, by simp only [step, hflag, Bool.false_eq_true, if_false, hhigh]⟩
      have hone : (1 : BitVec 32).toNat = 1 := rfl
      simp only [step, hflag, Bool.false_eq_true, if_false, BitVec.toNat_sub, hone]
      omega

/-- A motor at 12.5 turns a second that is to make 15. -/
def lagging : Input where
  motorSpeed := 15
  cycleCnt := 10000000

theorem run_preset (i : Input) (c : ℕ) :
    (run (fun _ => i) (c + 1)).dutyCnt = (preset i.motorSpeed).1 ∧
      (run (fun _ => i) (c + 1)).expectSpeed = (preset i.motorSpeed).2 := ⟨rfl, rfl⟩

theorem duty_not_legal : ¬ ∀ (input : ℕ → Input) (c : ℕ), Legal (run input c) := by
  intro h
  obtain ⟨c, hc⟩ : ∃ c, timeCntMax.toNat = c + 1 := ⟨49999999, rfl⟩
  obtain ⟨htime, hhigh⟩ := run_first_period lagging hc.ge
  obtain ⟨hduty, hexpect⟩ := run_preset lagging c
  have hfits : Fits (run (fun _ => lagging) (c + 1)) lagging :=
    (step_legal_iff (h _ (c + 1)) (dutyCnt_le _ _) lagging).mp (h (fun _ => lagging) (c + 1 + 1))
  have hflag : (run (fun _ => lagging) (c + 1)).timeoutFlag = true := by
    rw [State.timeoutFlag, beq_iff_eq, ← BitVec.toNat_inj]
    have : (0 : BitVec 32).toNat = 0 := rfl
    omega
  have hslow := (hfits hflag (by decide)).2
  rw [hduty, hexpect, hhigh] at hslow
  exact absurd (hslow (by decide) (by decide)) (by decide)

end Feed

namespace PwmDrive

def run (s : State) (input : ℕ → Input) (c : ℕ) : State := trace step s.reset input c

def Input.limit (i : Input) : Phase → BitVec 16
  | .idle => 0
  | .high => i.highCnt
  | .low => i.lowCnt

/-- The limits change with this clock. -/
def Changes (input : ℕ → Input) (c : ℕ) : Prop := (input (c + 1)).highCnt ≠ (input c).highCnt

/-- The motor is enabled, the two limits divide 5000 clocks, and they stand for 50000 clocks. -/
structure Driven (input : ℕ → Input) : Prop where
  enable : ∀ c, (input c).enable = true
  high : ∀ c, 1 ≤ (input c).highCnt.toNat ∧ (input c).highCnt.toNat ≤ 4999
  low : ∀ c, 1 ≤ (input c).lowCnt.toNat ∧ (input c).lowCnt.toNat ≤ 4999
  sum : ∀ c, (input c).highCnt.toNat + (input c).lowCnt.toNat = 5000
  apart : ∀ c d, c < d → Changes input c → Changes input d → c + 50000 ≤ d

/-- No phase but `IDLE` lasts longer than 5000 clocks. -/
def Bounded (s : State) (input : ℕ → Input) : Prop :=
  ∀ c phase, phase ≠ .idle → ∃ d ≤ 5000, (run s input (c + d)).cs ≠ phase

/-- The phase goes on, and its limit changes to one that the counter has reached. -/
def Overtaken (s : State) (i : Input) : Prop :=
  s.cs ≠ .idle ∧ s.phaseOver = false ∧ i.limit s.cs ≠ s.limit s.cs ∧
    (i.limit s.cs).toNat ≤ s.stateCnt.toNat + 1

instance (s : State) (i : Input) : Decidable (Overtaken s i) :=
  inferInstanceAs (Decidable (_ ∧ _ ∧ _ ∧ _))

section Phases

variable {s : State} {input : ℕ → Input} {c : ℕ} {phase : Phase}

theorem Driven.limit (h : Driven input) (c : ℕ) (hphase : phase ≠ .idle) :
    1 ≤ ((input c).limit phase).toNat ∧ ((input c).limit phase).toNat ≤ 4999 := by
  cases phase with
  | idle => exact absurd rfl hphase
  | high => exact h.high c
  | low => exact h.low c

/-- Without a change of the high limit there is none of the low limit. -/
theorem Driven.limit_eq (h : Driven input) (hsame : ¬ Changes input c) (phase : Phase) :
    (input (c + 1)).limit phase = (input c).limit phase := by
  have hhigh : (input (c + 1)).highCnt = (input c).highCnt := not_not.mp hsame
  have hsum := h.sum c
  have hsum' := h.sum (c + 1)
  rw [hhigh] at hsum'
  cases phase with
  | idle => rfl
  | high => exact hhigh
  | low => exact BitVec.eq_of_toNat_eq (show (input (c + 1)).lowCnt.toNat = _ by
      rw [Input.limit]
      omega)

theorem limit_succ (s : State) (input : ℕ → Input) (c : ℕ) (phase : Phase) :
    (run s input (c + 1)).limit phase = (input c).limit phase := by
  cases phase <;> rfl

/-- The test at the end of a phase, for a limit that is not zero. -/
theorem phaseOver_iff (hpos : 1 ≤ (s.limit s.cs).toNat) :
    s.phaseOver = true ↔ s.stateCnt.toNat + 1 = (s.limit s.cs).toNat := by
  have hcnt := s.stateCnt.isLt
  have hlimit := (s.limit s.cs).isLt
  have hone : (1 : BitVec 32).toNat = 1 := rfl
  rw [State.phaseOver, beq_iff_eq, ← BitVec.toNat_inj, BitVec.toNat_sub, BitVec.toNat_setWidth,
    BitVec.toNat_setWidth, hone]
  omega

theorem step_stays (i : Input) (hcs : s.cs ≠ .idle) (hover : s.phaseOver = false) :
    (step s i).cs = s.cs ∧ (step s i).stateCnt = s.stateCnt + 1 := by
  have hns : s.ns i.enable = s.cs := by
    unfold State.ns
    cases hphase : s.cs with
    | idle => exact absurd hphase hcs
    | high => simp [hover]
    | low => simp [hover]
  simp [step, hns]

/-- A phase that is over, and `IDLE`, are followed by another phase. -/
theorem step_leaves {i : Input} (henable : i.enable = true)
    (hover : s.cs ≠ .idle → s.phaseOver = true) :
    (step s i).cs ≠ s.cs ∧ (step s i).cs ≠ .idle ∧ (step s i).stateCnt = 0 := by
  have hns : s.ns i.enable ≠ s.cs ∧ s.ns i.enable ≠ .idle := by
    unfold State.ns
    cases hphase : s.cs with
    | idle => simp [henable]
    | high => simp [hover (by simp [hphase])]
    | low => simp [hover (by simp [hphase]), henable]
  refine ⟨hns.1, hns.2, ?_⟩
  simp [step, hns.1.symm]

theorem counted (h : Driven input) (c : ℕ) :
    (run s input c).stateCnt.toNat ≤ c ∧
      ∀ k ≤ (run s input c).stateCnt.toNat, (run s input (c - k)).cs = (run s input c).cs := by
  induction c with
  | zero => exact ⟨le_rfl, fun k hk => by rw [Nat.zero_sub]⟩
  | succ c ih =>
      obtain ⟨hle, hall⟩ := ih
      have hrun : run s input (c + 1) = step (run s input c) (input c) := rfl
      by_cases hstay : (run s input c).cs ≠ .idle ∧ (run s input c).phaseOver = false
      · obtain ⟨hcs, hcnt⟩ := step_stays (input c) hstay.1 hstay.2
        have hnext : (run s input (c + 1)).stateCnt.toNat ≤
            (run s input c).stateCnt.toNat + 1 := by
          rw [hrun, hcnt, BitVec.toNat_add]
          exact Nat.mod_le _ _
        refine ⟨by omega, fun k hk => ?_⟩
        cases k with
        | zero => rfl
        | succ k =>
            rw [Nat.add_sub_add_right, hall k (by omega), hrun, hcs]
      · obtain ⟨-, -, hcnt⟩ := step_leaves (h.enable c) (s := run s input c) fun hcs => by
          simpa using fun hover => hstay ⟨hcs, hover⟩
        have hzero : (run s input (c + 1)).stateCnt.toNat = 0 := by
          rw [hrun, hcnt]
          rfl
        refine ⟨by omega, fun k hk => ?_⟩
        rw [hzero, Nat.le_zero] at hk
        rw [hk, Nat.sub_zero]

theorem runs_past (h : Driven input) (hover : Overtaken (run s input c) (input c))
    (hcnt : (run s input c).stateCnt.toNat ≤ 5000) {k : ℕ} (hk : k ≤ 5000) :
    (run s input (c + 1 + k)).cs = (run s input c).cs ∧
      (run s input (c + 1 + k)).stateCnt.toNat = (run s input c).stateCnt.toNat + 1 + k ∧
        (run s input (c + 1 + k)).limit (run s input c).cs =
          (input c).limit (run s input c).cs := by
  obtain ⟨hcs, hgoes, hchange, hlimit⟩ := hover
  have hone : (1 : BitVec 16).toNat = 1 := rfl
  induction k with
  | zero =>
      obtain ⟨hstay, hcount⟩ := step_stays (input c) hcs hgoes
      have hrun : run s input (c + 1) = step (run s input c) (input c) := rfl
      refine ⟨by rw [Nat.add_zero, hrun, hstay], ?_, limit_succ s input c _⟩
      rw [Nat.add_zero, hrun, hcount, BitVec.toNat_add, hone]
      omega
  | succ k ih =>
      obtain ⟨hphase, hcount, hsame⟩ := ih (by omega)
      have hpos := h.limit c hcs
      have hgoes' : (run s input (c + 1 + k)).phaseOver = false := by
        rw [Bool.eq_false_iff, Ne, phaseOver_iff (by rw [hphase, hsame]; exact hpos.1), hphase,
          hsame, hcount]
        omega
      obtain ⟨hstay, hcount'⟩ :=
        step_stays (input (c + 1 + k)) (by rw [hphase]; exact hcs) hgoes'
      have hrun : run s input (c + 1 + (k + 1)) =
          step (run s input (c + 1 + k)) (input (c + 1 + k)) := rfl
      -- the change in front of clock `c` forbids another one
      have hbefore : ∃ b, c = b + 1 ∧ Changes input b := by
        cases c with
        | zero => exact absurd rfl hcs
        | succ b =>
            refine ⟨b, rfl, fun heq => hchange ?_⟩
            rw [limit_succ]
            exact h.limit_eq (not_not.mpr heq) _
      obtain ⟨b, rfl, hb⟩ := hbefore
      have hquiet : ¬ Changes input (b + 1 + k) := fun hk' => by
        have := h.apart b (b + 1 + k) (by omega) hb hk'
        omega
      refine ⟨by rw [hrun, hstay, hphase], ?_, ?_⟩
      · rw [hrun, hcount', BitVec.toNat_add, hone, hcount]
        omega
      · have hclock : b + 1 + 1 + (k + 1) = b + 1 + k + 1 + 1 := by omega
        have hclock' : b + 1 + 1 + k = b + 1 + k + 1 := by omega
        rw [hclock', limit_succ] at hsame
        rw [hclock, limit_succ, h.limit_eq hquiet, hsame]

theorem not_bounded_of_overtaken (h : Driven input)
    (hover : Overtaken (run s input c) (input c)) : ¬ Bounded s input := by
  intro hbound
  obtain ⟨hle, hall⟩ := counted (s := s) h c
  have hcnt : (run s input c).stateCnt.toNat ≤ 5000 := by
    by_contra hlong
    obtain ⟨d, hd, hleft⟩ := hbound (c - 5000) _ hover.1
    have hclock : c - 5000 + d = c - (5000 - d) := by omega
    rw [hclock] at hleft
    exact hleft (hall (5000 - d) (by omega))
  obtain ⟨d, hd, hleft⟩ := hbound (c + 1) _ hover.1
  exact hleft (runs_past h hover hcnt hd).1

/-- As long as no phase is overtaken, the counter is below the limit. -/
theorem below_limit (h : Driven input)
    (hnone : ∀ c, ¬ Overtaken (run s input c) (input c)) (c : ℕ) :
    (run s input c).cs ≠ .idle →
      (run s input c).stateCnt.toNat < ((run s input c).limit (run s input c).cs).toNat := by
  induction c with
  | zero => exact fun hcs => absurd rfl hcs
  | succ c ih =>
      intro hcs
      have hrun : run s input (c + 1) = step (run s input c) (input c) := rfl
      have hlimit := h.limit c hcs
      rw [limit_succ]
      by_cases hstay : (run s input c).cs ≠ .idle ∧ (run s input c).phaseOver = false
      · obtain ⟨hphase, hcount⟩ := step_stays (input c) hstay.1 hstay.2
        have hbelow := ih hstay.1
        have hgoes := hstay.2
        rw [Bool.eq_false_iff, Ne, phaseOver_iff (by omega)] at hgoes
        have hnot := hnone c
        have hone : (1 : BitVec 16).toNat = 1 := rfl
        have hsmall := ((run s input c).limit (run s input c).cs).isLt
        rw [hrun, hphase, hcount, BitVec.toNat_add, hone, Nat.mod_eq_of_lt (by omega)]
        by_cases hsame : (input c).limit (run s input c).cs = (run s input c).limit (run s input c).cs
        · rw [hsame]
          omega
        · by_contra hreached
          exact hnot ⟨hstay.1, hstay.2, hsame, by omega⟩
      · obtain ⟨-, -, hcnt⟩ := step_leaves (h.enable c) (s := run s input c) fun hcs => by
          simpa using fun hover => hstay ⟨hcs, hover⟩
        have hzero : (run s input (c + 1)).stateCnt.toNat = 0 := by
          rw [hrun, hcnt]
          rfl
        omega

end Phases

/-- **The phases of the driver** are bounded exactly if no change of the limits overtakes one. -/
theorem bounded_iff {input : ℕ → Input} (h : Driven input) (s : State) :
    Bounded s input ↔ ∀ c, ¬ Overtaken (run s input c) (input c) := by
  refine ⟨fun hbound c hover => not_bounded_of_overtaken h hover hbound, fun hnone => ?_⟩
  intro c phase hphase
  by_contra hstays
  have hall : ∀ d ≤ 5000, (run s input (c + d)).cs = phase := fun d hd => by
    by_contra hleft
    exact hstays ⟨d, hd, hleft⟩
  have hcount : ∀ d ≤ 5000,
      (run s input (c + d)).stateCnt.toNat = (run s input c).stateCnt.toNat + d := by
    intro d
    induction d with
    | zero => exact fun _ => rfl
    | succ d ih =>
        intro hd
        have hrun : run s input (c + (d + 1)) = step (run s input (c + d)) (input (c + d)) := rfl
        have hcs := hall d (by omega)
        have hgoes : (run s input (c + d)).phaseOver = false := by
          by_contra hover
          have hleaves := step_leaves (h.enable (c + d)) (s := run s input (c + d)) fun _ => by
            simpa using hover
          exact hleaves.1 (by rw [← hrun, hall (d + 1) hd, hcs])
        have hstep := step_stays (input (c + d)) (by rw [hcs]; exact hphase) hgoes
        have hbelow := below_limit h hnone (c + d) (by rw [hcs]; exact hphase)
        have hsmall := ((run s input (c + d)).limit (run s input (c + d)).cs).isLt
        have hone : (1 : BitVec 16).toNat = 1 := rfl
        rw [hrun, hstep.2, BitVec.toNat_add, hone, Nat.mod_eq_of_lt (by omega), ih (by omega),
          Nat.add_assoc]
  have hbelow := below_limit h hnone (c + 5000) (by rw [hall 5000 le_rfl]; exact hphase)
  have hlast := hcount 5000 le_rfl
  have hlimit : ((run s input (c + 5000)).limit (run s input (c + 5000)).cs).toNat ≤ 4999 := by
    have hclock : c + 5000 = c + 4999 + 1 := by omega
    rw [hall 5000 le_rfl, hclock, limit_succ]
    exact (h.limit _ hphase).2
  omega

/-- The limits that `feed` starts with. -/
def steady (_ : ℕ) : Input where
  enable := true
  highCnt := 460
  lowCnt := 4540

theorem driven_steady : Driven steady where
  enable _ := rfl
  high _ := by unfold steady; decide
  low _ := by unfold steady; decide
  sum _ := rfl
  apart _ _ _ hc := absurd rfl hc

/-- All registers at zero. -/
def dark : State where
  highCntR0 := 0
  lowCntR0 := 0
  cs := .idle
  stateCnt := 0

theorem bounded_steady : Bounded dark steady :=
  (bounded_iff driven_steady dark).mpr fun c hover => by
    cases c with
    | zero => exact hover.1 rfl
    | succ c => exact hover.2.2.1 (limit_succ dark steady c _).symm

/-- The high time goes down from 550 to 100 clocks after 200 clocks. -/
def lowered (c : ℕ) : Input where
  enable := true
  highCnt := if c < 200 then 550 else 100
  lowCnt := if c < 200 then 4450 else 4900

theorem driven_lowered : Driven lowered where
  enable _ := rfl
  high c := by
    unfold lowered
    dsimp only
    split <;> decide
  low c := by
    unfold lowered
    dsimp only
    split <;> decide
  sum c := by
    unfold lowered
    dsimp only
    split <;> rfl
  apart c d hlt hc hd := by
    have honce (e : ℕ) (he : Changes lowered e) : e = 199 := by
      by_contra hne
      apply he
      unfold lowered
      have hiff : e + 1 < 200 ↔ e < 200 := by omega
      simp only [hiff]
    rw [honce c hc, honce d hd] at hlt
    exact absurd hlt (lt_irrefl _)

theorem not_bounded_lowered :
    ¬ ∀ (input : ℕ → Input) (s : State), Driven input → Bounded s input := fun h =>
  not_bounded_of_overtaken (c := 200) driven_lowered
    (by decide +kernel : Overtaken (run dark lowered 200) (lowered 200))
    (h lowered dark driven_lowered)

end PwmDrive

end SingleScan
