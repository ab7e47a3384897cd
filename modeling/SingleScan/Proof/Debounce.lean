import SingleScan.Lib.Samples
import SingleScan.Proof.AlarmPath

/-!
# The debouncing of the alarm

`alarm_cnt` is never more than the number of the last rotations in a row that were not free: it counts
them, and at 501 it falls back to 500. An alarm bit goes up with a distance if the count has reached the
threshold, and comes down at the end of a rotation that was free. What the machine takes for the end of a
rotation is two clocks late, and `data_select` leaves at least two clocks between two windows.
-/

namespace SingleScan.AlarmPath

open Clocked CompareRegion Sampled
open DataSelect (ns_of_idle ns_of_skip ns_of_enable ns_of_over cycleEnable_eq_true)

/-- The verdict on a rotation, in the last clock of its window. -/
def verdict (k : Layer) (s : State) (i : Input) : Option Bool :=
  if s.select.cycleEnable && !(step s i).select.cycleEnable then
    some ((step s i).compare.regionFlag k)
  else none

/-- The rotations that have ended before clock `t`, `true` for a free one. -/
def verdicts (s : State) (input : ℕ → Input) (k : Layer) (t : ℕ) : List Bool :=
  logged step s input (verdict k) 0 t

section Clock

variable (s : State) (i : Input) (k : Layer)

theorem step_alarmCntR :
    (step s i).compare.alarmCntR k =
      if s.compare.cycleEnableFall then alarmCount (s.compare.regionFlag k) (s.compare.alarmCntR k)
      else s.compare.alarmCntR k := rfl

theorem step_alarmIoR :
    (step s i).compare.alarmIoR k =
      if s.select.dataOutValid i.select then
        if s.compare.hit (s.compareInput i) k ∧
            s.compare.alarmOutputThresholdCom.toNat ≤ (s.compare.alarmCntR k).toNat then true
        else s.compare.alarmIoR k
      else if s.compare.cycleEnableFall ∧ s.compare.regionFlag k then false
      else s.compare.alarmIoR k := rfl

/-- A count is one higher at the most, and 0 behind a free rotation. -/
theorem alarmCount_le (free : Bool) (count : BitVec 10) :
    (alarmCount free count).toNat ≤ if free then 0 else count.toNat + 1 := by
  have hmod := Nat.mod_le (count.toNat + 1) (2 ^ 10)
  unfold alarmCount
  cases free with
  | true => simp
  | false =>
      simp only [Bool.false_eq_true, if_false]
      split
      · next h =>
        change 500 ≤ _
        omega
      · rw [BitVec.toNat_add]
        exact hmod

/-- The count does not get beyond 501, whatever it counts. -/
theorem alarmCount_le_501 (free : Bool) {count : BitVec 10} (hcount : count.toNat ≤ 501) :
    (alarmCount free count).toNat ≤ 501 := by
  unfold alarmCount
  split
  · decide
  · split
    · decide
    · rw [BitVec.toNat_add]
      have hsmall : count.toNat + (1 : BitVec 10).toNat ≤ 501 := by
        have hone : (1 : BitVec 10).toNat = 1 := rfl
        omega
      exact (Nat.mod_le _ _).trans hsmall

/-- The counter keeps below the rotations in a row that were not free. -/
theorem alarmCount_le_streak {free : Bool} {count : BitVec 10} {past : List Bool}
    (hcount : count.toNat ≤ streak false past) :
    (alarmCount free count).toNat ≤ streak false (past ++ [free]) := by
  have hstep := alarmCount_le free count
  rw [streak_concat]
  cases free with
  | true => simpa using hstep
  | false =>
      simp only [Bool.false_eq_true, if_false, if_true] at hstep ⊢
      omega

end Clock

section Run

variable {compare : CompareRegion.State} {rddata : Layer → BitVec 18} {input : ℕ → Input} {t : ℕ}

theorem alarmCntR_le (t : ℕ) (k : Layer) :
    ((run (.reset compare rddata) input t).compare.alarmCntR k).toNat ≤ 501 := by
  refine trace_invariant (fun s : State => (s.compare.alarmCntR k).toNat ≤ 501) (Nat.zero_le _) ?_ t
  intro s t hcount
  rw [step_alarmCntR]
  split
  · exact alarmCount_le_501 _ hcount
  · exact hcount

theorem cycleEnableFall_add_two (s : State) (t : ℕ) :
    (run s input (t + 2)).compare.cycleEnableFall =
      ((run s input t).select.cycleEnable && !(run s input (t + 1)).select.cycleEnable) := by
  change (((run s input t).select.cycleEnable, (run s input (t + 1)).select.cycleEnable) ==
    (true, false)) = _
  cases (run s input t).select.cycleEnable <;> cases (run s input (t + 1)).select.cycleEnable <;> rfl

theorem not_cycleEnableFall (ht : t < 2) :
    (run (.reset compare rddata) input t).compare.cycleEnableFall = false := by
  obtain rfl | rfl : t = 0 ∨ t = 1 := by omega
  all_goals rfl

theorem verdicts_succ (s : State) (k : Layer) (t : ℕ) :
    verdicts s input k (t + 1) =
      verdicts s input k t ++ (verdict k (run s input t) (input t)).toList := by
  rw [verdicts, logged_succ, Nat.zero_add]
  rfl

/-- A window that is open has not been closed in the clock before only. -/
theorem closed_twice (s : State) (hopen : (run s input (t + 2)).select.cycleEnable = true)
    (hclosed : (run s input (t + 1)).select.cycleEnable = false) :
    (run s input t).select.cycleEnable = false := by
  rw [cycleEnable_eq_true] at hopen
  rw [← Bool.not_eq_true, cycleEnable_eq_true] at hclosed ⊢
  intro hbefore
  have hfirst : (run s input (t + 1)).select.cs = (run s input t).select.ns (input t).select := rfl
  have hsecond : (run s input (t + 2)).select.cs =
      (run s input (t + 1)).select.ns (input (t + 1)).select := rfl
  rw [ns_of_enable _ hbefore] at hfirst
  split at hfirst
  · rw [ns_of_idle _ hfirst, hopen] at hsecond
    split at hsecond <;> cases hsecond
  · exact hclosed hfirst

/-- **The count and the rotations**, two clocks late. -/
theorem alarmCntR_le_streak (t : ℕ) (k : Layer) :
    ((run (.reset compare rddata) input (t + 2)).compare.alarmCntR k).toNat ≤
      streak false (verdicts (.reset compare rddata) input k t) := by
  induction t with
  | zero => exact Nat.zero_le _
  | succ t ih =>
      rw [verdicts_succ]
      change ((step (run (.reset compare rddata) input (t + 2)) (input (t + 2))).compare.alarmCntR
        k).toNat ≤ _
      rw [step_alarmCntR, cycleEnableFall_add_two, verdict]
      change _ ≤ streak false (_ ++ (if (run (.reset compare rddata) input t).select.cycleEnable &&
        !(run (.reset compare rddata) input (t + 1)).select.cycleEnable then
          some ((run (.reset compare rddata) input (t + 1)).compare.regionFlag k) else none).toList)
      by_cases hended : ((run (.reset compare rddata) input t).select.cycleEnable &&
          !(run (.reset compare rddata) input (t + 1)).select.cycleEnable) = true
      · have hclosed : (run (.reset compare rddata) input (t + 1)).select.cs ≠ .enable := by
          have hboth := hended
          rw [Bool.and_eq_true, Bool.not_eq_true'] at hboth
          exact fun hopen => Bool.false_ne_true (hboth.2.symm.trans (cycleEnable_eq_true.2 hopen))
        have hflag : (run (.reset compare rddata) input (t + 2)).compare.regionFlag k =
            (run (.reset compare rddata) input (t + 1)).compare.regionFlag k :=
          step_regionFlag_of_closed _ (input (t + 1)) k hclosed
        rw [if_pos hended, if_pos hended, hflag]
        exact alarmCount_le_streak ih
      · rw [if_neg hended, if_neg hended, Option.toList_none, List.append_nil]
        exact ih

/-- While a window is open no rotation has ended in the last two clocks. -/
theorem verdicts_of_open (s : State) (k : Layer)
    (hopen : (run s input (t + 2)).select.cycleEnable = true) :
    verdicts s input k (t + 2) = verdicts s input k t := by
  have hnow : verdict k (run s input (t + 1)) (input (t + 1)) = none := by
    have hnext : (step (run s input (t + 1)) (input (t + 1))).select.cycleEnable = true := hopen
    rw [verdict, hnext]
    simp
  have hbefore : verdict k (run s input t) (input t) = none := by
    have hnext : (step (run s input t) (input t)).select.cycleEnable =
        (run s input (t + 1)).select.cycleEnable := rfl
    rw [verdict, hnext]
    cases hclosed : (run s input (t + 1)).select.cycleEnable with
    | true => simp
    | false => simp [closed_twice s hopen hclosed]
  rw [verdicts_succ, verdicts_succ, hnow, hbefore, Option.toList_none, List.append_nil,
    List.append_nil]

/-- **Debouncing.** An alarm bit goes up in a window only, and with as many rotations before it that were
not free as the threshold asks for. It comes down at the end of a free rotation only. -/
theorem debounced (compare : CompareRegion.State) (rddata : Layer → BitVec 18) (input : ℕ → Input)
    (t : ℕ) (k : Layer) :
    ((run (.reset compare rddata) input t).compare.alarmIoR k = false →
        (run (.reset compare rddata) input (t + 1)).compare.alarmIoR k = true →
        (run (.reset compare rddata) input t).select.cycleEnable = true ∧
          List.replicate (run (.reset compare rddata) input t).compare.alarmOutputThresholdCom.toNat
            false <:+ verdicts (.reset compare rddata) input k t) ∧
      ((run (.reset compare rddata) input t).compare.alarmIoR k = true →
        (run (.reset compare rddata) input (t + 1)).compare.alarmIoR k = false →
        ∃ last, t = last + 2 ∧ verdict k (run (.reset compare rddata) input last) (input last) =
          some true) ∧
      ((run (.reset compare rddata) input t).compare.alarmCntR k).toNat ≤ 501 := by
  have hstep : (run (.reset compare rddata) input (t + 1)).compare.alarmIoR k =
      (step (run (.reset compare rddata) input t) (input t)).compare.alarmIoR k := rfl
  rw [hstep, step_alarmIoR]
  refine ⟨fun hlow hup => ?_, fun hhigh hdown => ?_, alarmCntR_le t k⟩
  · rw [hlow] at hup
    by_cases hvalid : (run (.reset compare rddata) input t).select.dataOutValid (input t).select = true
    · rw [if_pos hvalid] at hup
      have hopen : (run (.reset compare rddata) input t).select.cycleEnable = true := by
        rw [DataSelect.State.dataOutValid, Bool.and_eq_true] at hvalid
        exact hvalid.1
      refine ⟨hopen, ?_⟩
      have hcount : (run (.reset compare rddata) input t).compare.alarmOutputThresholdCom.toNat ≤
          ((run (.reset compare rddata) input t).compare.alarmCntR k).toNat := by
        by_contra hfew
        rw [if_neg fun h => hfew h.2] at hup
        cases hup
      obtain ⟨u, rfl⟩ : ∃ u, t = u + 2 := by
        refine ⟨t - 2, ?_⟩
        by_contra hearly
        obtain rfl | rfl : t = 0 ∨ t = 1 := by omega
        · cases hopen
        · rw [cycleEnable_eq_true] at hopen
          have hns : (run (.reset compare rddata) input 1).select.cs =
              if (input 0).select.zeroFlag then .skip else .idle := rfl
          rw [hns] at hopen
          split at hopen <;> cases hopen
      rw [replicate_suffix_iff, verdicts_of_open _ k hopen]
      exact hcount.trans (alarmCntR_le_streak u k)
    · rw [if_neg hvalid] at hup
      split at hup <;> cases hup
  · rw [hhigh] at hdown
    by_cases hvalid : (run (.reset compare rddata) input t).select.dataOutValid (input t).select = true
    · rw [if_pos hvalid] at hdown
      split at hdown <;> cases hdown
    · rw [if_neg hvalid] at hdown
      have hend : (run (.reset compare rddata) input t).compare.cycleEnableFall = true ∧
          (run (.reset compare rddata) input t).compare.regionFlag k = true := by
        by_contra hnot
        rw [if_neg hnot] at hdown
        cases hdown
      obtain ⟨u, rfl⟩ : ∃ u, t = u + 2 := by
        refine ⟨t - 2, ?_⟩
        by_contra hearly
        rw [not_cycleEnableFall (by omega)] at hend
        cases hend.1
      have hended := hend.1
      rw [cycleEnableFall_add_two] at hended
      have hclosed : (run (.reset compare rddata) input (u + 1)).select.cs ≠ .enable := by
        have hboth := hended
        rw [Bool.and_eq_true, Bool.not_eq_true'] at hboth
        exact fun hopen => Bool.false_ne_true (hboth.2.symm.trans (cycleEnable_eq_true.2 hopen))
      have hflag := step_regionFlag_of_closed _ (input (u + 1)) k hclosed
      refine ⟨u, rfl, ?_⟩
      have hverdict : verdict k (run (.reset compare rddata) input u) (input u) =
          if (run (.reset compare rddata) input u).select.cycleEnable &&
            !(run (.reset compare rddata) input (u + 1)).select.cycleEnable then
            some ((run (.reset compare rddata) input (u + 1)).compare.regionFlag k)
          else none := rfl
      rw [hverdict, if_pos hended, ← hflag]
      exact congrArg some hend.2

end Run

end SingleScan.AlarmPath
