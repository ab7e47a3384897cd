import Mathlib.Algebra.BigOperators.Intervals
import SingleScan.Proof.Rotation

/-!
# The size of a target

With a least size the widths of the distances in a region add up, and a jump of more than 50 mm starts
over. A distance outside the region neither adds nor starts over, the distance behind a jump does not
add, and the last width counts twice instead. So a rotation of scattered distances is hit as well.
-/

namespace SingleScan.AlarmPath

open Clocked CompareRegion
open DataSelect (cycleEnable_eq_true)

/-! ### What the machine adds up -/

/-- `range_des`, the width of a point at the distance `x`. -/
def arc (x : BitVec 16) : ℕ := 58 * x.toNat / 1000

/-- How far two distances are apart. -/
def gap (x y : BitVec 16) : ℕ :=
  if y.toNat < x.toNat then x.toNat - y.toNat else y.toNat - x.toNat

section Contour

variable (boundary : ℕ → BitVec 18) (d : ℕ → BitVec 16)

/-- The distance before the first one counts as 0. -/
def previous : ℕ → BitVec 16
  | 0 => 0
  | n + 1 => d n

/-- Distance `n` is more than 50 mm from the one before. -/
def jumps (n : ℕ) : Bool := 50 < gap (previous d n) (d n)

/-- The width of a distance inside the boundary that it is compared with. -/
def width (n : ℕ) : ℕ := if inside (boundary (n + 1)) (d n) then arc (d n) else 0

/-- `sum_r` behind the first `n` distances. -/
def summed : ℕ → ℕ
  | 0 => 0
  | n + 1 => if jumps d n then 0 else summed n + width boundary d n

/-- What distance `n` is judged by. -/
def counted (n : ℕ) : ℕ :=
  if jumps d n then 0 else summed boundary d (n + 1) + width boundary d n

theorem arc_le (x : BitVec 16) : arc x ≤ 3801 := by
  have hx := x.isLt
  unfold arc
  omega

theorem width_le (n : ℕ) : width boundary d n ≤ 3801 := by
  unfold width
  split
  · exact arc_le _
  · exact Nat.zero_le _

theorem summed_le (n : ℕ) : summed boundary d n ≤ 3801 * n := by
  induction n with
  | zero => exact Nat.zero_le _
  | succ n ih =>
      have hwidth := width_le boundary d n
      rw [summed]
      split <;> omega

/-- A run of distances, each within 50 mm of the one before it, comes to `least`. The distances of the
run that are outside the boundary add nothing, and the last one adds its width twice. -/
def CountedRun (least : ℕ) : Prop :=
  ∃ a b, a ≤ b ∧ b + 1 < targetNumber ∧ (∀ n ∈ Finset.Icc a b, jumps d n = false) ∧
    least ≤ (∑ n ∈ Finset.Icc a b, width boundary d n) + width boundary d b

theorem sum_le_summed {a b : ℕ} (hab : a ≤ b) (hnone : ∀ n ∈ Finset.Icc a b, jumps d n = false) :
    ∑ n ∈ Finset.Icc a b, width boundary d n ≤ summed boundary d (b + 1) := by
  induction b, hab using Nat.le_induction with
  | base =>
      rw [Finset.Icc_self, Finset.sum_singleton, summed, hnone a (by simp)]
      exact Nat.le_add_left _ _
  | succ b hab ih =>
      have hbefore := ih fun n hn => hnone n (Finset.Icc_subset_Icc_right (Nat.le_add_right b 1) hn)
      rw [Finset.sum_Icc_succ_top (by omega), summed, hnone (b + 1) (by simp; omega)]
      exact Nat.add_le_add_right hbefore _

/-- What has been summed goes back to the last jump, or to the first distance. -/
theorem exists_run {b : ℕ} (hb : jumps d b = false) :
    ∃ a ≤ b, (∀ n ∈ Finset.Icc a b, jumps d n = false) ∧
      summed boundary d (b + 1) = ∑ n ∈ Finset.Icc a b, width boundary d n := by
  have hsingle (b : ℕ) (hb : jumps d b = false) (hstart : summed boundary d b = 0) :
      ∃ a ≤ b, (∀ n ∈ Finset.Icc a b, jumps d n = false) ∧
        summed boundary d (b + 1) = ∑ n ∈ Finset.Icc a b, width boundary d n := by
    refine ⟨b, le_rfl, ?_, ?_⟩
    · intro n hn
      rw [Finset.Icc_self, Finset.mem_singleton] at hn
      rw [hn, hb]
    · rw [Finset.Icc_self, Finset.sum_singleton, summed, hb, hstart]
      exact Nat.zero_add _
  induction b with
  | zero => exact hsingle 0 hb rfl
  | succ b ih =>
      cases hbefore : jumps d b with
      | true =>
          refine hsingle (b + 1) hb ?_
          rw [summed, hbefore]
          rfl
      | false =>
          obtain ⟨a, hab, hnone, hsum⟩ := ih hbefore
          refine ⟨a, by omega, ?_, ?_⟩
          · intro n hn
            rw [Finset.mem_Icc] at hn
            rcases Nat.lt_or_eq_of_le hn.2 with hlt | rfl
            · exact hnone n (by rw [Finset.mem_Icc]; omega)
            · exact hb
          · rw [Finset.sum_Icc_succ_top (by omega), ← hsum, summed, hb]
            rfl

theorem countedRun_iff {least : ℕ} (hpos : 0 < least) :
    CountedRun boundary d least ↔ ∃ l, l + 1 < targetNumber ∧ least ≤ counted boundary d l := by
  constructor
  · rintro ⟨a, b, hab, hb, hnone, hleast⟩
    have hlast := hnone b (by simp [hab])
    have hsum := sum_le_summed boundary d hab hnone
    refine ⟨b, hb, ?_⟩
    rw [counted, hlast]
    exact hleast.trans (Nat.add_le_add_right hsum _)
  · rintro ⟨l, hl, hleast⟩
    cases hlast : jumps d l with
    | true =>
        rw [counted, hlast] at hleast
        exact absurd hleast (Nat.not_le.2 hpos)
    | false =>
        obtain ⟨a, hal, hnone, hsum⟩ := exists_run boundary d hlast
        refine ⟨a, l, hal, hl, hnone, ?_⟩
        rw [counted, hlast, hsum] at hleast
        exact hleast

end Contour

/-! ### One clock of the sums -/

section Registers

variable (s : State) (i : Input) (k : Layer)

theorem step_targetPosS0 (henabled : s.select.cs = .enable) :
    (step s i).compare.targetPosS0 =
      if (sample s i).isSome then s.compare.targetPosR0 else s.compare.targetPosS0 := by
  change (if s.select.cycleEnable then
    if s.select.dataOutValid i.select then s.compare.targetPosR0 else s.compare.targetPosS0
    else 0) = _
  rw [cycleEnable_eq_true.2 henabled, if_pos rfl, sample]
  cases s.select.dataOutValid i.select <;> rfl

theorem step_changeR0 :
    (step s i).compare.changeR0.toNat = gap s.compare.targetPosS0 s.compare.targetPosR0 := by
  change BitVec.toNat (if s.compare.targetPosR0.toNat < s.compare.targetPosS0.toNat then
    s.compare.targetPosS0 - s.compare.targetPosR0
    else s.compare.targetPosR0 - s.compare.targetPosS0) = _
  unfold gap
  split
  · next h => rw [BitVec.toNat_sub_of_le (Nat.le_of_lt h)]
  · next h => rw [BitVec.toNat_sub_of_le (Nat.le_of_not_lt h)]

theorem step_rangeDesUm :
    (step s i).compare.rangeDesUm.toNat = 58 * s.compare.targetPosR0.toNat := by
  have hpos := s.compare.targetPosR0.isLt
  have hum : (step s i).compare.rangeDesUm = s.compare.targetPosR0.setWidth 24 * 58 := rfl
  have hfactor : (58 : BitVec 24).toNat = 58 := rfl
  rw [hum, BitVec.toNat_mul, BitVec.toNat_setWidth, hfactor,
    Nat.mod_eq_of_lt (show s.compare.targetPosR0.toNat < 2 ^ 24 by omega)]
  omega

theorem step_quotients_zero :
    ((step s i).compare.quotients 0).toNat = s.compare.rangeDesUm.toNat / 1000 := by
  have hquotient : (step s i).compare.quotients 0 = s.compare.rangeDesUm / 1000 := rfl
  rw [hquotient, BitVec.toNat_udiv]
  rfl

theorem step_quotients_succ (stage : Fin 15) :
    (step s i).compare.quotients stage.succ = s.compare.quotients stage.castSucc := rfl

theorem step_judge :
    (step s i).compare.judge k =
      decide ((s.compare.sumR k + (s.compare.sum k).setWidth 22).toNat <
        s.compare.minTargetSizeF.toNat) := rfl

theorem step_sum :
    (step s i).compare.sum k =
      if 0 < (s.compare.sumR k).toNat ∧ s.compare.flag k then s.compare.rangeDes.setWidth 12
      else 0 := rfl

/-- In a window a contour ends at a jump, as long as the sum is small. -/
theorem step_sumR (henabled : s.select.cs = .enable) :
    (step s i).compare.sumR k =
      if 50 < s.compare.changeR0.toNat ∧ s.compare.judge k then 0
      else if s.compare.flag k ∧ s.compare.cnt = 30 then
        s.compare.sumR k + s.compare.rangeDes.setWidth 22
      else s.compare.sumR k := by
  have hsum : (step s i).compare.sumR k =
      if s.compare.contourEnds (s.compareInput i) k then 0
      else if s.compare.flag k && s.compare.cnt == 30 then
        s.compare.sumR k + s.compare.rangeDes.setWidth 22
      else s.compare.sumR k := rfl
  have hopen : (s.compareInput i).cycleEnable = true := cycleEnable_eq_true.2 henabled
  rw [hsum, CompareRegion.State.contourEnds, hopen]
  simp

theorem step_regionFlag_sized (henabled : s.select.cs = .enable) (hsize : 0 < i.minTargetSize.toNat) :
    (step s i).compare.regionFlag k =
      if s.compare.cs = .read ∧ s.compare.rdCnt = 0 then true
      else if s.compare.cnt = 36 ∧ s.compare.judge k = false then false
      else s.compare.regionFlag k := by
  have hflag : (step s i).compare.regionFlag k =
      if s.select.cycleEnable then
        if s.compare.cs = .read ∧ s.compare.rdCnt = 0 then true
        else if s.compare.cnt = 36 ∧ s.compare.hit (s.compareInput i) k then false
        else s.compare.regionFlag k
      else s.compare.regionFlag k := rfl
  have hhit : s.compare.hit (s.compareInput i) k = !s.compare.judge k := if_pos hsize
  rw [hflag, cycleEnable_eq_true.2 henabled, if_pos rfl, hhit]
  simp

end Registers

/-! ### The sums behind a distance -/

/-- The registers `g` clocks behind distance `j`, which has been taken last, as long as no distance has
reached the limit `least`. -/
structure Contour (boundary : ℕ → BitVec 18) (d : ℕ → BitVec 16) (least : ℕ) (k : Layer) (j g : ℕ)
    (s : State) : Prop where
  pos : s.compare.targetPosR0 = d j
  posBefore : s.compare.targetPosS0 = previous d j
  change : 2 ≤ g → s.compare.changeR0.toNat = gap (previous d j) (d j)
  changeBefore : g = 1 → 50 < s.compare.changeR0.toNat → summed boundary d j = 0
  rangeDesUm : 2 ≤ g → s.compare.rangeDesUm.toNat = 58 * (d j).toNat
  quotients : ∀ stage : Fin 16, 3 + stage.val ≤ g → (s.compare.quotients stage).toNat = arc (d j)
  rddata : 3 ≤ g → s.rddata k = boundary (j + 1)
  flag : 4 ≤ g → s.compare.flag k = inside (boundary (j + 1)) (d j)
  sumStart : g ≤ 2 → (s.compare.sumR k).toNat = summed boundary d j
  sumCleared : jumps d j = true → 3 ≤ g → s.compare.sumR k = 0
  sumKept : jumps d j = false → g ≤ 31 → (s.compare.sumR k).toNat = summed boundary d j
  sumDone : 32 ≤ g → (s.compare.sumR k).toNat = summed boundary d (j + 1)
  lastStart : g = 1 → (s.compare.sumR k).toNat + (s.compare.sum k).toNat < least
  lastCleared : jumps d j = true → 4 ≤ g → s.compare.sum k = 0
  lastDone : 33 ≤ g → (s.compare.sumR k).toNat + (s.compare.sum k).toNat = counted boundary d j
  judgeStart : g = 2 → s.compare.judge k = true
  judgeCleared : jumps d j = true → 5 ≤ g → s.compare.judge k = true
  judgeDone : 34 ≤ g → s.compare.judge k = decide (counted boundary d j < least)

section Quiet

variable {boundary : ℕ → BitVec 18} {d : ℕ → BitVec 16} {least j g : ℕ} {k : Layer} {s : State}
  {i : Input}

theorem cnt_eq_add_iff (hlive : Live (j + 1) g s) : s.compare.cnt = 30 ↔ g = 31 := by
  have hcnt := hlive.cnt
  have hlate := hlive.late
  rw [if_neg (Nat.succ_ne_zero j)] at hcnt hlate
  rw [← BitVec.toNat_inj, hcnt]
  change min (g - 1) 41 = 30 ↔ _
  omega

theorem judge_eq (hj : j < targetNumber) (hsum : (s.compare.sumR k).toNat ≤ 3801 * (j + 1)) :
    (step s i).compare.judge k =
      decide ((s.compare.sumR k).toNat + (s.compare.sum k).toNat < s.compare.minTargetSizeF.toNat) := by
  have hlast := (s.compare.sum k).isLt
  have hsize : targetNumber = 811 := rfl
  rw [step_judge, BitVec.toNat_add, BitVec.toNat_setWidth,
    Nat.mod_eq_of_lt (show (s.compare.sum k).toNat < 2 ^ 22 by omega), Nat.mod_eq_of_lt (by omega)]

theorem Contour.sumR_le (h : Contour boundary d least k j g s) :
    (s.compare.sumR k).toNat ≤ 3801 * (j + 1) := by
  have hbefore := summed_le boundary d j
  have hbehind := summed_le boundary d (j + 1)
  by_cases hlate : 32 ≤ g
  · rw [h.sumDone hlate]
    exact hbehind
  · cases hjump : jumps d j with
    | false =>
        rw [h.sumKept hjump (by omega)]
        omega
    | true =>
        by_cases hearly : g ≤ 2
        · rw [h.sumStart hearly]
          omega
        · rw [h.sumCleared hjump (by omega)]
          exact Nat.zero_le _

theorem Contour.rangeDes_eq (h : Contour boundary d least k j g s) (hg : 18 ≤ g) :
    s.compare.rangeDes.toNat = arc (d j) := by
  have harc := arc_le (d j)
  rw [CompareRegion.State.rangeDes, BitVec.toNat_setWidth, h.quotients 15 hg, Nat.mod_eq_of_lt (by omega)]

/-- A contour ends in the clock behind `change_r0`, at a jump. -/
theorem Contour.ends_iff (h : Contour boundary d least k j g s) (hjudge : s.compare.judge k = true)
    (hg : 2 ≤ g) : (50 < s.compare.changeR0.toNat ∧ s.compare.judge k = true) ↔ jumps d j = true := by
  rw [and_iff_left hjudge, h.change hg, jumps, decide_eq_true_iff]

theorem Contour.step_sumR (hlive : Live (j + 1) g s) (h : Contour boundary d least k j g s)
    (hj : j < targetNumber) :
    (g = 1 → ((step s i).compare.sumR k).toNat = summed boundary d j) ∧
      (jumps d j = true → 2 ≤ g → (step s i).compare.sumR k = 0) ∧
      (jumps d j = false → g ≤ 30 → ((step s i).compare.sumR k).toNat = summed boundary d j) ∧
      (31 ≤ g → ((step s i).compare.sumR k).toNat = summed boundary d (j + 1)) := by
  have hstep := AlarmPath.step_sumR s i k hlive.enabled
  simp only [cnt_eq_add_iff hlive] at hstep
  have hcleared : jumps d j = true → 2 ≤ g → (step s i).compare.sumR k = 0 := by
    intro hjump hg
    rw [hstep]
    by_cases htwo : g = 2
    · rw [if_pos ((h.ends_iff (h.judgeStart htwo) hg).2 hjump)]
    · have hzero := h.sumCleared hjump (by omega)
      split
      · rfl
      · next hopen =>
        have hlast : g ≠ 31 := by
          rintro rfl
          exact hopen ((h.ends_iff (h.judgeCleared hjump (by decide)) hg).2 hjump)
        rw [if_neg fun hadd => hlast hadd.2, hzero]
  have hkeeps : jumps d j = false → 2 ≤ g → ¬(50 < s.compare.changeR0.toNat ∧
      s.compare.judge k = true) := by
    intro hjump hg hend
    have hsmall : ¬50 < gap (previous d j) (d j) := by simpa [jumps] using hjump
    rw [h.change hg] at hend
    exact hsmall hend.1
  have hfirst : g = 1 → ((step s i).compare.sumR k).toNat = summed boundary d j := by
    intro hone
    rw [hstep]
    split
    · next hend => exact (h.changeBefore hone hend.1).symm
    · rw [if_neg (by omega)]
      exact h.sumStart (by omega)
  refine ⟨hfirst, hcleared, fun hjump hg => ?_, fun hg => ?_⟩
  · by_cases hone : g = 1
    · exact hfirst hone
    · have hlate := hlive.late
      rw [if_neg (Nat.succ_ne_zero j)] at hlate
      rw [hstep, if_neg (hkeeps hjump (by omega)), if_neg (by omega)]
      exact h.sumKept hjump (by omega)
  · cases hjump : jumps d j with
    | true =>
        rw [hcleared hjump (by omega), summed, hjump]
        rfl
    | false =>
        rw [hstep, if_neg (hkeeps hjump (by omega))]
        by_cases hadd : g = 31
        · have hbefore := h.sumKept hjump hadd.le
          have hbound := summed_le boundary d j
          have harc := arc_le (d j)
          have hsize : targetNumber = 811 := rfl
          rw [h.flag (by omega), summed, hjump, width]
          by_cases hin : inside (boundary (j + 1)) (d j) = true
          · rw [if_pos ⟨hin, hadd⟩, if_pos hin, BitVec.toNat_add, BitVec.toNat_setWidth, hbefore,
              h.rangeDes_eq (by omega), Nat.mod_eq_of_lt (show arc (d j) < 2 ^ 22 by omega),
              Nat.mod_eq_of_lt (by omega)]
            rfl
          · rw [if_neg fun hboth => hin hboth.1, if_neg hin, hbefore]
            rfl
        · rw [if_neg fun hboth => hadd hboth.2]
          exact h.sumDone (by omega)

theorem Contour.step_last (h : Contour boundary d least k j g s) (hg : 32 ≤ g) :
    summed boundary d (j + 1) + ((step s i).compare.sum k).toNat = counted boundary d j := by
  have harc := arc_le (d j)
  have hwide : (s.compare.rangeDes.setWidth 12).toNat = arc (d j) := by
    rw [BitVec.toNat_setWidth, h.rangeDes_eq (by omega), Nat.mod_eq_of_lt (by omega)]
  rw [step_sum, h.sumDone hg, h.flag (by omega), counted]
  cases hjump : jumps d j with
  | true =>
      rw [summed, hjump]
      rfl
  | false =>
      rw [summed, hjump, width]
      by_cases hin : inside (boundary (j + 1)) (d j) = true
      · simp only [hin, if_true, Bool.false_eq_true, if_false, and_true]
        split
        · rw [hwide]
        · next hzero =>
          have hnone : arc (d j) = 0 := by omega
          rw [hnone]
          rfl
      · simp [hin]

/-- **A quiet clock** of a contour. -/
theorem Contour.quiet (hlive : Live (j + 1) g s) (h : Contour boundary d least k j g s)
    (hmore : j + 1 < targetNumber) (hquiet : i.select.dataInValid = false)
    (hram : i.ram k (BitVec.ofNat 10 (j + 1)) = boundary (j + 1)) (hpos : 0 < least)
    (hleast : s.compare.minTargetSizeF.toNat = least) :
    Contour boundary d least k j (g + 1) (step s i) := by
  have hlate : 1 ≤ g := by
    have hlate := hlive.late
    rwa [if_neg (Nat.succ_ne_zero j)] at hlate
  have hnone : sample s i = none := by
    rw [sample_of_enabled _ hlive.enabled, hquiet]
    rfl
  have hj : j < targetNumber := Nat.lt_of_succ_lt hmore
  have hjudge := judge_eq (i := i) hj h.sumR_le
  obtain ⟨hsumFirst, hsumCleared, hsumKept, hsumDone⟩ := h.step_sumR (i := i) hlive hj
  constructor
  case pos => rw [step_targetPosR0 _ _ hlive.enabled, hnone, h.pos]; rfl
  case posBefore => rw [step_targetPosS0 _ _ hlive.enabled, hnone, h.posBefore]; rfl
  case change => exact fun _ => by rw [step_changeR0, h.pos, h.posBefore]
  case changeBefore => omega
  case rangeDesUm => exact fun _ => by rw [step_rangeDesUm, h.pos]
  case quotients =>
    intro stage hg
    cases stage using Fin.cases with
    | zero =>
        have htwo : 2 ≤ g := by simpa using hg
        change ((step s i).compare.quotients 0).toNat = _
        rw [step_quotients_zero, h.rangeDesUm htwo]
        rfl
    | succ stage =>
        rw [step_quotients_succ]
        exact h.quotients _ (by simpa [← Nat.add_assoc] using hg)
  case rddata =>
    intro hg
    rw [step_rddata]
    split_ifs with hread
    · have hrd := hlive.rdCnt (.inl (Nat.succ_pos j)) (.inr hmore)
      have haddr : s.compare.rdCnt.setWidth 10 = BitVec.ofNat 10 (j + 1) := by
        rw [← hrd]
        rfl
      rw [haddr, hram]
    · rw [hlive.phase, phaseAt_eq_read_iff] at hread
      exact h.rddata (by omega)
  case flag =>
    intro hg
    rw [step_flag, h.rddata (by omega), h.pos]
  case sumStart => exact fun hg => hsumFirst (by omega)
  case sumCleared => exact fun hjump hg => hsumCleared hjump (by omega)
  case sumKept => exact fun hjump hg => hsumKept hjump (by omega)
  case sumDone => exact fun hg => hsumDone (by omega)
  case lastStart => omega
  case lastCleared =>
    intro hjump hg
    rw [step_sum, h.sumCleared hjump (by omega)]
    rfl
  case lastDone =>
    intro hg
    rw [hsumDone (by omega)]
    exact h.step_last (by omega)
  case judgeStart =>
    intro hg
    rw [hjudge, hleast]
    exact decide_eq_true (h.lastStart (by omega))
  case judgeCleared =>
    intro hjump hg
    rw [hjudge, hleast, h.sumCleared hjump (by omega), h.lastCleared hjump (by omega)]
    exact decide_eq_true hpos
  case judgeDone =>
    intro hg
    rw [hjudge, hleast, h.lastDone (by omega)]

/-- **The next distance**, when the last one has not reached the limit. -/
theorem Contour.next (hlive : Live (j + 1) g s) (h : Contour boundary d least k j g s) (hg : 41 < g)
    (hj : j < targetNumber) (hsample : sample s i = some (d (j + 1)))
    (hsmall : counted boundary d j < least) :
    Contour boundary d least k (j + 1) 1 (step s i) := by
  have hsum := (h.step_sumR (i := i) hlive hj).2.2.2 (by omega)
  constructor
  case pos => rw [step_targetPosR0 _ _ hlive.enabled, hsample]; rfl
  case posBefore =>
    rw [step_targetPosS0 _ _ hlive.enabled, hsample, h.pos]
    rfl
  case changeBefore =>
    intro _ hchange
    rw [step_changeR0, h.pos, h.posBefore] at hchange
    rw [summed, jumps, decide_eq_true hchange]
    rfl
  case sumStart => exact fun _ => hsum
  case sumKept => exact fun _ _ => hsum
  case lastStart =>
    intro _
    rw [hsum, h.step_last (by omega)]
    exact hsmall
  all_goals omega

end Quiet

/-! ### The verdict of a rotation with a least size -/

/-- Before the first distance. -/
structure Fresh (k : Layer) (g : ℕ) (s : State) : Prop where
  pos : s.compare.targetPosR0 = 0
  posBefore : s.compare.targetPosS0 = 0
  sumR : s.compare.sumR k = 0
  sum : 3 ≤ g → s.compare.sum k = 0
  free : 5 ≤ g → s.compare.regionFlag k = true

/-- The distances the strobe has passed, `g` clocks after distance `j`. -/
def passed (j g : ℕ) : ℕ := if g ≤ 37 then j else j + 1

/-- What is known of a layer with `n` distances taken: it is hit, and one of the distances has reached the
limit, or it is free and none has. -/
def Tracked (boundary : ℕ → BitVec 18) (d : ℕ → BitVec 16) (least : ℕ) (k : Layer) :
    ℕ → ℕ → State → Prop
  | 0, g, s => Fresh k g s
  | j + 1, g, s =>
      (s.compare.regionFlag k = false ∧ ∃ l < passed j g, least ≤ counted boundary d l) ∨
        (s.compare.regionFlag k = true ∧ (∀ l < passed j g, counted boundary d l < least) ∧
          Contour boundary d least k j g s)

section Window

variable {boundary : ℕ → BitVec 18} {d : ℕ → BitVec 16} {least n g : ℕ} {k : Layer} {s : State}
  {i : Input}

theorem Fresh.quiet (hlive : Live 0 g s) (h : Fresh k g s) (hquiet : i.select.dataInValid = false)
    (hsize : 0 < i.minTargetSize.toNat) : Fresh k (g + 1) (step s i) := by
  have hlate : 2 ≤ g := hlive.late
  have hnone : sample s i = none := by
    rw [sample_of_enabled _ hlive.enabled, hquiet]
    rfl
  have hcnt : s.compare.cnt.toNat = 41 := hlive.cnt
  constructor
  case pos => rw [step_targetPosR0 _ _ hlive.enabled, hnone, h.pos]; rfl
  case posBefore => rw [step_targetPosS0 _ _ hlive.enabled, hnone, h.posBefore]; rfl
  case sumR =>
    have hstep := step_sumR s i k hlive.enabled
    have hnot : ¬(s.compare.flag k = true ∧ s.compare.cnt = 30) := by
      rintro ⟨-, hthirty⟩
      rw [hthirty] at hcnt
      cases hcnt
    rw [hstep, if_neg hnot, h.sumR, ite_self]
  case sum =>
    intro _
    rw [step_sum, h.sumR]
    rfl
  case free =>
    intro hg
    have hstrobe : ¬(s.compare.cnt = 36 ∧ s.compare.judge k = false) := by
      rintro ⟨hthirtysix, -⟩
      rw [hthirtysix] at hcnt
      cases hcnt
    rw [step_regionFlag_sized s i k hlive.enabled hsize, if_neg hstrobe]
    by_cases hfour : g = 4
    · have hcs : s.compare.cs = .read := by
        rw [hlive.phase, phaseAt_eq_read_iff]
        exact .inl ⟨rfl, hfour⟩
      have hrd : s.compare.rdCnt = 0 :=
        BitVec.eq_of_toNat_eq (hlive.rdCnt (.inr (by omega)) (.inr (by decide)))
      rw [if_pos ⟨hcs, hrd⟩]
    · rw [h.free (by omega), ite_self]

theorem Fresh.next (hlive : Live 0 g s) (h : Fresh k g s) (hg : 41 < g)
    (hsample : sample s i = some (d 0)) (hsize : 0 < i.minTargetSize.toNat) (hpos : 0 < least) :
    (step s i).compare.regionFlag k = true ∧ Contour boundary d least k 0 1 (step s i) := by
  have hcnt : s.compare.cnt.toNat = 41 := hlive.cnt
  have hsum : (step s i).compare.sumR k = 0 := by
    have hnot : ¬(s.compare.flag k = true ∧ s.compare.cnt = 30) := by
      rintro ⟨-, hthirty⟩
      rw [hthirty] at hcnt
      cases hcnt
    rw [step_sumR s i k hlive.enabled, if_neg hnot, h.sumR, ite_self]
  constructor
  · have hstrobe : ¬(s.compare.cnt = 36 ∧ s.compare.judge k = false) := by
      rintro ⟨hthirtysix, -⟩
      rw [hthirtysix] at hcnt
      cases hcnt
    rw [step_regionFlag_sized s i k hlive.enabled hsize, if_neg hstrobe, h.free (by omega), ite_self]
  · constructor
    case pos => rw [step_targetPosR0 _ _ hlive.enabled, hsample]; rfl
    case posBefore => rw [step_targetPosS0 _ _ hlive.enabled, hsample, h.pos]; rfl
    case changeBefore => exact fun _ _ => rfl
    case sumStart => exact fun _ => by rw [hsum]; rfl
    case sumKept => exact fun _ _ => by rw [hsum]; rfl
    case lastStart =>
      intro _
      rw [hsum, step_sum, h.sumR]
      exact hpos
    all_goals omega

theorem Tracked.quiet (hlive : Live n g s) (h : Tracked boundary d least k n g s)
    (hmore : n < targetNumber) (hquiet : i.select.dataInValid = false)
    (hram : 0 < n → i.ram k (BitVec.ofNat 10 n) = boundary n) (hsize : 0 < i.minTargetSize.toNat)
    (hpos : 0 < least) (hleast : s.compare.minTargetSizeF.toNat = least) :
    Tracked boundary d least k n (g + 1) (step s i) := by
  cases n with
  | zero => exact Fresh.quiet hlive h hquiet hsize
  | succ j =>
      have hclear := not_clearing hlive (Nat.succ_ne_zero j) (.inr hmore)
      have hflag := step_regionFlag_sized s i k hlive.enabled hsize
      rw [if_neg hclear] at hflag
      have hstrobe := cnt_eq_strobe_iff hlive
      rcases h with ⟨hhit, l, hl, hreached⟩ | ⟨hfree, hnone, hcontour⟩
      · refine .inl ⟨by rw [hflag, hhit, ite_self], l, ?_, hreached⟩
        unfold passed at hl ⊢
        split_ifs at hl ⊢ <;> omega
      · have hnext := hcontour.quiet (i := i) hlive hmore hquiet (hram (Nat.succ_pos j)) hpos hleast
        by_cases hnow : g = 37
        · -- The strobe: the last distance joins the verdict.
          have hbefore : passed j g = j := by rw [passed, if_pos (by omega)]
          have hafter : passed j (g + 1) = j + 1 := by rw [passed, if_neg (by omega)]
          rw [hbefore] at hnone
          have hcnt := hstrobe.2 ⟨Nat.succ_ne_zero j, hnow⟩
          rw [hcontour.judgeDone (by omega)] at hflag
          by_cases hsmall : counted boundary d j < least
          · refine .inr ⟨?_, ?_, hnext⟩
            · rw [hflag, if_neg (by simp [hsmall]), hfree]
            · intro l hl
              rw [hafter] at hl
              rcases Nat.lt_or_eq_of_le (Nat.le_of_lt_succ hl) with hlt | rfl
              · exact hnone l hlt
              · exact hsmall
          · refine .inl ⟨?_, j, ?_, Nat.le_of_not_lt hsmall⟩
            · rw [hflag, if_pos ⟨hcnt, by simp [hsmall]⟩]
            · rw [hafter]
              exact Nat.lt_succ_self j
        · have hsame : passed j (g + 1) = passed j g := by
            unfold passed
            split_ifs <;> omega
          refine .inr ⟨?_, by rwa [hsame], hnext⟩
          rw [hflag, if_neg fun hcnt => hnow (hstrobe.1 hcnt.1).2, hfree]

theorem Tracked.next (hlive : Live n g s) (h : Tracked boundary d least k n g s)
    (hmore : n < targetNumber) (hg : 41 < g) (hsample : sample s i = some (d n))
    (hsize : 0 < i.minTargetSize.toNat) (hpos : 0 < least) :
    Tracked boundary d least k (n + 1) 1 (step s i) := by
  cases n with
  | zero =>
      obtain ⟨hfree, hcontour⟩ : (step s i).compare.regionFlag k = true ∧
          Contour boundary d least k 0 1 (step s i) :=
        Fresh.next hlive h hg hsample hsize hpos
      exact .inr ⟨hfree, fun l hl => absurd hl (Nat.not_lt_zero l), hcontour⟩
  | succ j =>
      obtain ⟨hcs, hcnt⟩ := hlive.awaits hmore hg
      have hflag : (step s i).compare.regionFlag k = s.compare.regionFlag k := by
        rw [step_regionFlag_sized s i k hlive.enabled hsize, if_neg (by simp [hcs]),
          if_neg fun hstrobe => hcnt hstrobe.1]
      have hall : passed j g = j + 1 := by rw [passed, if_neg (by omega)]
      have hnext : passed (j + 1) 1 = j + 1 := rfl
      rcases h with ⟨hhit, hreached⟩ | ⟨hfree, hnone, hcontour⟩
      · rw [hall] at hreached
        exact .inl ⟨by rw [hflag, hhit], hreached⟩
      · rw [hall] at hnone
        refine .inr ⟨by rw [hflag, hfree], hnone, ?_⟩
        exact hcontour.next hlive hg (Nat.lt_of_succ_lt hmore) hsample (hnone j (Nat.lt_succ_self j))

end Window

/-! ### A whole rotation -/

/-- Boundary `n` of a layer. -/
def boundaryAt (tables : Layer → BoundaryTable) (k : Layer) (n : ℕ) : BitVec 18 :=
  tableRam tables k (BitVec.ofNat 10 n)

/-- Distance `n` of a rotation. -/
def distance (samples : Fin targetNumber → BitVec 16) (n : ℕ) : BitVec 16 :=
  if h : n < targetNumber then samples ⟨n, h⟩ else 0

/-- A rotation with a least size of the targets. -/
structure Sized (s : State) (input : ℕ → Input) (tables : Layer → BoundaryTable)
    (samples : Fin targetNumber → BitVec 16) (size : BitVec 16) (first stop : ℕ) : Prop
    extends Swept s input samples first stop where
  stored : ∀ t, first ≤ t → t < stop → ∀ k (j : Fin targetNumber),
    (input t).ram k (BitVec.ofNat 10 j) = (tables k j).setWidth 18
  positive : 0 < size.toNat
  sized : ∀ t, first ≤ t → t < stop → (input t).minTargetSize = size
  limit : ∀ t, first ≤ t → t < stop →
    (run s input t).compare.minTargetSizeF.toNat = 10 * size.toNat

/-- A contiguous run of distances inside the boundaries of their own directions, each within 50 mm of the
one before it, is at least `least` wide. -/
def WideRun (table : BoundaryTable) (samples : Fin targetNumber → BitVec 16) (least : ℕ) : Prop :=
  ∃ a b : Fin targetNumber, a ≤ b ∧ (∀ j ∈ Finset.Icc a b, Inside (table j) (samples j)) ∧
    (∀ i j : Fin targetNumber, a ≤ i → i.val + 1 = j.val → j ≤ b →
      gap (samples i) (samples j) ≤ 50) ∧
    least ≤ ∑ j ∈ Finset.Icc a b, arc (samples j)

section Rotation

variable {compare : CompareRegion.State} {rddata : Layer → BitVec 18} {input : ℕ → Input}
  {tables : Layer → BoundaryTable} {samples : Fin targetNumber → BitVec 16} {size : BitVec 16}
  {first stop : ℕ}

/-- A distance that is handed over is the next one of the rotation. -/
theorem distance_of_sample {s : State} (hrot : Swept s input samples first stop) {m : ℕ}
    (hm : first + m < stop) {x : BitVec 16}
    (hx : sample (run s input (first + m)) (input (first + m)) = some x) :
    distance samples (logged step s input sample first m).length = x := by
  have hprefix : logged step s input sample first (m + 1) <+:
      logged step s input sample first (stop - first) :=
    logged_isPrefix sample first (by omega)
  rw [logged_sample_succ, hx, Option.toList_some, hrot.distances] at hprefix
  obtain ⟨rest, hrest⟩ := hprefix
  have hget : (List.ofFn samples)[(logged step s input sample first m).length]? = some x := by
    rw [← hrest, List.append_assoc]
    simp
  rw [List.getElem?_ofFn] at hget
  split_ifs at hget with hlt
  rw [distance, dif_pos hlt]
  exact Option.some.inj hget

theorem fresh_first (hrot : Swept (.reset compare rddata) input samples first stop)
    (k : Layer) : Fresh k 2 (run (.reset compare rddata) input first) := by
  have hopen := cycleEnable_eq_true.1 (hrot.during first le_rfl hrot.begins)
  cases first with
  | zero => cases hopen
  | succ t =>
      have hclosed := hrot.before t rfl
      rw [run_succ]
      generalize run (.reset compare rddata) input t = s at hclosed
      constructor
      case pos =>
        change (if s.select.cycleEnable then _ else 0) = _
        rw [hclosed, if_neg (by decide)]
      case posBefore =>
        change (if s.select.cycleEnable then _ else 0) = _
        rw [hclosed, if_neg (by decide)]
      case sumR =>
        change (if s.compare.contourEnds (s.compareInput (input t)) k then 0 else _) = _
        rw [CompareRegion.State.contourEnds, State.compareInput, hclosed]
        rfl
      all_goals omega

/-- **The run lemma** of a window with a least size. -/
theorem tracked_run (hpaced : Paced input)
    (hrot : Sized (.reset compare rddata) input tables samples size first stop) (k : Layer) (m : ℕ)
    (hm : first + m < stop)
    (hmore : (logged step (State.reset compare rddata) input sample first m).length < targetNumber ∨
      sinceSample input (first + m) = 1) :
    Tracked (boundaryAt tables k) (distance samples) (10 * size.toNat) k
      (logged step (State.reset compare rddata) input sample first m).length
      (sinceSample input (first + m)) (run (.reset compare rddata) input (first + m)) := by
  have hsize := hrot.positive
  have hpos : 0 < 10 * size.toNat := by omega
  induction m with
  | zero =>
      rw [Nat.add_zero, (live_first hpaced hrot.toSwept).1]
      exact fresh_first hrot.toSwept k
  | succ m ih =>
      have hlive := live_run hpaced hrot.toSwept m (by omega)
      have hlate := hlive.late
      have hsized := hrot.sized (first + m) (by omega) (by omega)
      rw [← hsized] at hsize
      cases hvalid : (input (first + m)).select.dataInValid with
      | false =>
          have hlog := logged_sample_of_quiet hlive.enabled hvalid
          have hgap : sinceSample input (first + (m + 1)) = sinceSample input (first + m) + 1 :=
            sinceSample_of_quiet hvalid
          rw [hlog, hgap] at hmore ⊢
          have hmore' : (logged step (State.reset compare rddata) input sample first m).length <
              targetNumber := by
            split_ifs at hlate <;> omega
          refine Tracked.quiet hlive (ih (by omega) (.inl hmore')) hmore' hvalid (fun _ => ?_) hsize
            hpos (hrot.limit (first + m) (by omega) (by omega))
          rw [boundaryAt, tableRam_ofNat tables k hmore']
          exact hrot.stored (first + m) (by omega) (by omega) k ⟨_, hmore'⟩
      | true =>
          have hlog := logged_sample_of_sample hlive.enabled hvalid
          have hsample := sample_of_enabled (input (first + m)) hlive.enabled
          rw [hvalid, if_pos rfl] at hsample
          have hnext := distance_of_sample hrot.toSwept (by omega) hsample
          have hfits := length_logged_le hrot.toSwept (m := m + 1) (by omega)
          have hgap : sinceSample input (first + (m + 1)) = 1 := sinceSample_of_sample hvalid
          rw [hlog, List.length_append, List.length_singleton] at hfits ⊢
          rw [hgap]
          rw [← hnext] at hsample
          exact Tracked.next hlive (ih (by omega) (.inl hfits)) hfits (hpaced.apart _ hvalid) hsample
            hsize hpos

/-- **The verdict of a rotation** with a least size. -/
theorem regionFlag_sized (hpaced : Paced input)
    (hrot : Sized (.reset compare rddata) input tables samples size first stop) (k : Layer) :
    (run (.reset compare rddata) input (stop + 1)).compare.regionFlag k = false ↔
      CountedRun (boundaryAt tables k) (distance samples) (10 * size.toNat) := by
  have hpos : 0 < 10 * size.toNat := Nat.mul_pos (by decide) hrot.positive
  obtain ⟨m, hm, hgap, hall⟩ := window_last hpaced hrot.toSwept
  have hlive := live_run hpaced hrot.toSwept m (by omega)
  have htracked := tracked_run hpaced hrot k m (by omega) (.inr hgap)
  have hlength : (List.ofFn samples).length = 810 + 1 := List.length_ofFn
  rw [hall, hgap, hlength] at hlive htracked
  have hclosed : (run (.reset compare rddata) input stop).select.cs ≠ .enable := by
    simpa [← cycleEnable_eq_true] using hrot.after
  have hsize := hrot.positive
  rw [← hrot.sized (first + m) (by omega) (by omega)] at hsize
  rw [countedRun_iff _ _ hpos, run_succ, step_regionFlag_of_closed _ _ _ hclosed, ← hm,
    run_succ, step_regionFlag_sized _ _ _ hlive.enabled hsize,
    if_neg (not_clearing hlive (by omega) (.inl rfl)),
    if_neg (fun hstrobe => absurd ((cnt_eq_strobe_iff hlive).1 hstrobe.1).2 (by decide))]
  rcases htracked with ⟨hhit, l, hl, hreached⟩ | ⟨hfree, hnone, -⟩
  · exact iff_of_true hhit ⟨l, Nat.succ_lt_succ hl, hreached⟩
  · refine iff_of_false (by simp [hfree]) ?_
    rintro ⟨l, hl, hreached⟩
    exact absurd hreached (Nat.not_le.2 (hnone l (Nat.lt_of_succ_lt_succ hl)))

/-- **The least size.** That the flag of a layer is cleared means a run of that size exactly if every
rotation that is counted as one has one. -/
theorem regionFlag_wide_iff (hpaced : Paced input)
    (hrot : Sized (.reset compare rddata) input tables samples size first stop) (k : Layer) :
    (run (.reset compare rddata) input (stop + 1)).compare.cycleEnableFall = true ∧
      (((run (.reset compare rddata) input (stop + 1)).compare.regionFlag k = false →
          WideRun (tables k) samples (10 * size.toNat)) ↔
        (CountedRun (boundaryAt tables k) (distance samples) (10 * size.toNat) →
          WideRun (tables k) samples (10 * size.toNat))) := by
  refine ⟨hrot.falls, ?_⟩
  rw [regionFlag_sized hpaced hrot k]

end Rotation

/-! ### A steady rotation with a least size -/

/-- The inputs of `steadyInput` with a least size from the start. -/
def sizedInput (tables : Layer → BoundaryTable) (size : BitVec 16) (t : ℕ) : Input :=
  { steadyInput tables t with minTargetSize := size }

theorem run_select (s : State) (input : ℕ → Input) (t : ℕ) :
    (run s input t).select = trace DataSelect.step s.select (fun t => (input t).select) t := by
  unfold run
  exact trace_component State.select (fun _ (i : Input) => i.select) (fun _ _ => rfl) t

theorem paced_sizedInput (tables : Layer → BoundaryTable) (size : BitVec 16) :
    Paced (sizedInput tables size) := by
  have hsince (t : ℕ) : sinceSample (sizedInput tables size) t = sinceSample (steadyInput tables) t := by
    induction t with
    | zero => rfl
    | succ t ih =>
        rw [sinceSample, sinceSample, ih]
        rfl
  have hpaced := paced_steadyInput tables
  constructor
  · intro t hvalid
    rw [hsince]
    exact hpaced.apart t hvalid
  · exact hpaced.angle

theorem swept_sizedInput (compare : CompareRegion.State) (rddata : Layer → BitVec 18)
    (tables : Layer → BoundaryTable) (size : BitVec 16) :
    Swept (.reset compare rddata) (sizedInput tables size) (fun _ => 1000) 66 51970 := by
  have hselect (t : ℕ) : (run (.reset compare rddata) (sizedInput tables size) t).select =
      (run (.reset compare rddata) (steadyInput tables) t).select := by
    rw [run_select, run_select]
    rfl
  have hsample (t : ℕ) :
      sample (run (.reset compare rddata) (sizedInput tables size) t) (sizedInput tables size t) =
        sample (run (.reset compare rddata) (steadyInput tables) t) (steadyInput tables t) := by
    rw [sample, hselect]
    rfl
  have hswept := (rotation_steadyInput compare rddata tables).swept
  constructor
  · exact hswept.begins
  · intro t ht
    rw [hselect]
    exact hswept.before t ht
  · intro t hle hlt
    rw [hselect]
    exact hswept.during t hle hlt
  · rw [hselect]
    exact hswept.after
  · rw [← hswept.distances]
    exact List.filterMap_congr fun t _ => hsample t

theorem minTargetSizeF_sizedInput (tables : Layer → BoundaryTable) {size : BitVec 16} (hsize : size ≠ 0)
    (t : ℕ) :
    (run (.reset powerUp fun _ => 0) (sizedInput tables size) (t + 2)).compare.minTargetSizeR0 = size ∧
      (run (.reset powerUp fun _ => 0) (sizedInput tables size) (t + 2)).compare.minTargetSizeR1 = size ∧
      (run (.reset powerUp fun _ => 0) (sizedInput tables size) (t + 2)).compare.minTargetSizeF =
        size.setWidth 17 * 10 := by
  induction t with
  | zero => exact ⟨rfl, rfl, if_pos hsize⟩
  | succ t ih =>
      obtain ⟨hr0, hr1, hf⟩ := ih
      refine ⟨rfl, hr0, ?_⟩
      rw [run_succ]
      change (if _ ≠ _ then _ else _) = _
      rw [hr0, hr1, if_neg (by simp), hf]

theorem sized_sizedInput (tables : Layer → BoundaryTable) :
    Sized (.reset powerUp fun _ => 0) (sizedInput tables 20) tables (fun _ => 1000) 20 66 51970 where
  toSwept := swept_sizedInput powerUp (fun _ => 0) tables 20
  stored := fun _ _ _ k j => tableRam_ofNat tables k j.isLt
  positive := by decide
  sized := fun _ _ _ => rfl
  limit := by
    intro t hle _
    obtain ⟨u, rfl⟩ : ∃ u, t = u + 2 := ⟨t - 2, by omega⟩
    rw [(minTargetSizeF_sizedInput tables (by decide) u).2.2]
    rfl

/-- Boundaries of 2000 mm all around. -/
theorem regionFlag_wide_iff_around :
    Sized (.reset powerUp fun _ => 0) (sizedInput (fun _ _ => 2000) 20) (fun _ _ => 2000)
        (fun _ => 1000) 20 66 51970 ∧
      (run (.reset powerUp fun _ => 0) (sizedInput (fun _ _ => 2000) 20)
        51971).compare.regionFlag 0 = false ∧
      WideRun (fun _ => 2000) (fun _ => 1000) 200 := by
  have hrot := sized_sizedInput fun _ _ => 2000
  have hpaced := paced_sizedInput (fun _ _ => 2000) 20
  have hcounted : CountedRun (boundaryAt (fun _ _ => 2000) 0) (distance fun _ => 1000) 200 :=
    ⟨1, 4, by decide, by decide, by decide, by decide⟩
  have hwide : WideRun (fun _ => 2000) (fun _ => 1000) 200 := by
    have hinside : Inside 2000 1000 := ⟨by decide, by decide⟩
    have hgap : gap 1000 1000 ≤ 50 := by decide
    refine ⟨⟨0, by decide⟩, ⟨3, by decide⟩, by decide, fun _ _ => hinside, fun _ _ _ _ _ => hgap, ?_⟩
    rw [Finset.sum_const, Fin.card_Icc]
    decide
  have hhit := (regionFlag_sized hpaced hrot 0).2 hcounted
  exact ⟨hrot, hhit, (regionFlag_wide_iff hpaced hrot 0).2.2 (fun _ => hwide) hhit⟩

/-- A boundary of 2000 mm in every other direction. -/
def everyOther (j : Fin targetNumber) : BitVec 16 := if j.val % 2 = 0 then 2000 else 0xFFFF

/-- No two neighbours are inside, so no run is wider than one distance. -/
theorem not_wideRun_everyOther : ¬ WideRun everyOther (fun _ => 1000) 200 := by
  rintro ⟨a, b, hab, hinside, -, hleast⟩
  have heven (j : Fin targetNumber) (hj : j ∈ Finset.Icc a b) : j.val % 2 = 0 := by
    by_contra hodd
    exact (hinside j hj).1 (if_neg hodd)
  have hsame : a = b := by
    by_contra hne
    have hlt : a.val < b.val := Nat.lt_of_le_of_ne hab fun h => hne (Fin.ext h)
    have ha := heven a (Finset.mem_Icc.2 ⟨le_rfl, hab⟩)
    have hnext := heven ⟨a.val + 1, by omega⟩ (Finset.mem_Icc.2
      ⟨Fin.le_def.2 (Nat.le_add_right a.val 1), Fin.le_def.2 hlt⟩)
    change (a.val + 1) % 2 = 0 at hnext
    omega
  have harc : arc 1000 = 58 := rfl
  rw [hsame, Finset.Icc_self, Finset.sum_singleton, harc] at hleast
  omega

/-- Scattered distances add up to a target. -/
theorem not_wideRun_of_scattered :
    ¬ ∀ (input : ℕ → Input) (tables : Layer → BoundaryTable)
      (samples : Fin targetNumber → BitVec 16) (size : BitVec 16) (first stop : ℕ), Paced input →
        Sized (.reset powerUp fun _ => 0) input tables samples size first stop →
          ∀ k, (run (.reset powerUp fun _ => 0) input (stop + 1)).compare.regionFlag k = false →
            WideRun (tables k) samples (10 * size.toNat) := by
  intro hall
  have hrot := sized_sizedInput fun _ => everyOther
  have hpaced := paced_sizedInput (fun _ => everyOther) 20
  have hcounted : CountedRun (boundaryAt (fun _ => everyOther) 0) (distance fun _ => 1000) 200 :=
    ⟨1, 7, by decide, by decide, by decide, by decide⟩
  have hhit := (regionFlag_sized hpaced hrot 0).2 hcounted
  exact not_wideRun_everyOther (hall _ _ _ _ _ _ hpaced hrot 0 hhit)

end SingleScan.AlarmPath
