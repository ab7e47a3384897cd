import SingleScan.Lib.Tally
import SingleScan.DustAlarm

/-!
# The dust count

`dust_cnt` is the count of a turn modulo 1024, and a distance in the very clock of the zero mark is not
in it. So the count is exact as long as there are not more than 1023 near distances in the turn and none
with the zero mark that it starts with.
-/

namespace SingleScan.DustAlarm

open Clocked

/-- The state after `t` clocks, from the reset on. -/
def run (input : ℕ → Input) (t : ℕ) : State := trace step State.reset input t

theorem run_succ (input : ℕ → Input) (t : ℕ) : run input (t + 1) = step (run input t) (input t) := rfl

/-- A distance is handed over at clock `t`, and it is at most `dust_alarm_threshold`. -/
def dusty (input : ℕ → Input) (t : ℕ) : Bool := (input t).dataInValid && (input t).near

/-- Two zero marks with none in between. -/
structure Turn (input : ℕ → Input) (z₀ z : ℕ) : Prop where
  lt : z₀ < z
  start : (input z₀).zeroFlag = true
  stop : (input z).zeroFlag = true
  between : ∀ t, z₀ < t → t < z → (input t).zeroFlag = false

variable {input : ℕ → Input} {z₀ z : ℕ}

theorem Turn.dustCntR0_eq (hturn : Turn input z₀ z) {t : ℕ} (hafter : z₀ + 1 ≤ t) (hle : t ≤ z) :
    (run input t).dustCntR0.toNat = tally (dusty input) (z₀ + 1) t % 1024 := by
  induction t, hafter using Nat.le_induction with
  | base =>
      rw [run_succ, tally_self]
      simp [step, hturn.start]
  | succ t hafter ih =>
      have hzero : (input t).zeroFlag = false := hturn.between t hafter hle
      have hbefore := ih (Nat.le_of_succ_le hle)
      cases hdusty : dusty input t with
      | true =>
          have hboth := hdusty
          rw [dusty, Bool.and_eq_true] at hboth
          rw [tally_succ_of_event hafter hdusty, run_succ]
          simp only [step, hzero, hboth.1, hboth.2, Bool.false_eq_true, if_false, if_true,
            BitVec.toNat_add, hbefore, BitVec.ofNat_eq_ofNat, BitVec.toNat_ofNat]
          omega
      | false =>
          have hkeep : (run input (t + 1)).dustCntR0 = (run input t).dustCntR0 := by
            rw [dusty, Bool.and_eq_false_iff] at hdusty
            rcases hdusty with hvalid | hnear <;> simp [run_succ, step, *]
          rw [tally_succ_of_not hafter hdusty, hkeep, hbefore]

/-- What is published is the count behind the first zero mark, in ten bits. -/
theorem Turn.dustCnt_eq (hturn : Turn input z₀ z) :
    (run input (z + 1)).dustCnt.toNat = tally (dusty input) (z₀ + 1) z % 1024 := by
  have hpublished : (run input (z + 1)).dustCnt = (run input z).dustCntR0 := by
    simp [run_succ, step, hturn.stop]
  rw [hpublished, hturn.dustCntR0_eq hturn.lt le_rfl]

/-- A distance in the clock of the zero mark belongs to the turn that starts there. -/
theorem Turn.tally_eq (hturn : Turn input z₀ z) :
    tally (dusty input) z₀ z =
      tally (dusty input) (z₀ + 1) z + if dusty input z₀ then 1 else 0 := by
  rw [← tally_add (dusty input) (Nat.le_succ z₀) hturn.lt, Nat.add_comm]
  cases hdusty : dusty input z₀ with
  | true => rw [tally_succ_of_event le_rfl hdusty, tally_self]; rfl
  | false => rw [tally_succ_of_not le_rfl hdusty, tally_self]; rfl

/-- **The count is exact** up to 1023, unless a near distance comes together with the zero mark. -/
theorem dustCnt_exact_iff (hturn : Turn input z₀ z) :
    (run input (z + 1)).dustCnt.toNat = tally (dusty input) z₀ z ↔
      tally (dusty input) z₀ z < 1024 ∧ dusty input z₀ = false := by
  rw [hturn.dustCnt_eq, hturn.tally_eq]
  cases hdusty : dusty input z₀ with
  | true =>
      have hless := Nat.mod_le (tally (dusty input) (z₀ + 1) z) 1024
      simp only [if_true, Bool.true_eq_false, and_false, iff_false]
      omega
  | false =>
      simp only [Bool.false_eq_true, if_false, and_true, Nat.add_zero]
      omega

/-- A turn of `n` distances, in every clock but that of the zero mark, all of them right at the window. -/
def covered (n t : ℕ) : Input where
  dustAlarmThreshold := 35
  zeroFlag := t % (n + 1) == 0
  dataInValid := t % (n + 1) != 0
  dataIn := 20

theorem covered_turn (n : ℕ) : Turn (covered n) 0 (n + 1) where
  lt := Nat.succ_pos n
  start := by simp [covered]
  stop := by simp [covered]
  between t hpos hlt := by
    have hne : t % (n + 1) ≠ 0 := by
      rw [Nat.mod_eq_of_lt hlt]
      omega
    simp [covered, hne]

theorem dustCnt_exact_covered :
    Turn (covered 1000) 0 1001 ∧
      ((run (covered 1000) 1002).dustCnt.toNat = tally (dusty (covered 1000)) 0 1001 ↔
        tally (dusty (covered 1000)) 0 1001 < 1024 ∧ dusty (covered 1000) 0 = false) :=
  ⟨covered_turn 1000, dustCnt_exact_iff (covered_turn 1000)⟩

/-- A window that is covered all around: 1081 distances are dust, and 57 are published. -/
theorem dustCnt_covered :
    Turn (covered 1081) 0 1082 ∧ tally (dusty (covered 1081)) 0 1082 = 1081 ∧
      (run (covered 1081) 1083).dustCnt.toNat = 57 := by
  have hturn := covered_turn 1081
  have htally : tally (dusty (covered 1081)) 1 1082 = 1081 := by
    have hall : ∀ t ∈ Finset.Ico 1 1082, dusty (covered 1081) t = true := by
      intro t ht
      rw [Finset.mem_Ico] at ht
      have hne : t % 1082 ≠ 0 := by omega
      simp [dusty, covered, Input.near, hne]
    rw [tally, Finset.filter_true_of_mem hall, Nat.card_Ico]
  refine ⟨hturn, ?_, ?_⟩
  · rw [hturn.tally_eq, htally]
    rfl
  · rw [hturn.dustCnt_eq, htally]

end SingleScan.DustAlarm
