import SingleScan.Proof.Histogram
import SingleScan.Proof.Readout

/-!
# What a window is reported as

A window that is not disturbed is reported 112 clocks after its toggle was seen. The report is a function
of the cells: of the fullest one, which the scan finds, and its neighbours. If the fullest cell is cell 0
or has less than 20 distances, the sums of an earlier window stand.
-/

namespace SingleScan

open Clocked GridDivision

namespace Readout

theorem targetPosR0_delay (divide : BitVec 24 → BitVec 9 → BitVec 24) (input : ℕ → Input) (c : ℕ) :
    (run divide input (c + 12)).statistical.targetPosR0 =
      (divide (run divide input c).statistical.sums.posNumer
        (run divide input c).statistical.sums.denom).setWidth 16 := by
  have hpos : (run divide input (c + 12)).statistical.mod10Ex01.quotient =
      divide (run divide input c).statistical.posNumer (run divide input c).statistical.denom :=
    @Mod10.quotient_delay divide (fun c => (run divide input c).statistical.mod10Ex01)
      (fun c => (run divide input c).statistical.posNumer)
      (fun c => (run divide input c).statistical.denom) (fun _ => rfl) c
  rw [GridStatistical.State.targetPosR0, hpos]
  rfl

/-- The report comes thirteen clocks behind the sums. -/
theorem report (divide : BitVec 24 → BitVec 9 → BitVec 24) (input : ℕ → Input) (c : ℕ) :
    (run divide input (c + 13)).statistical.targetPos =
        targetPos divide (input (c + 12)).correctPulseWidth (run divide input c).statistical.sums ∧
      (run divide input (c + 13)).statistical.targetGray =
        targetGray divide (run divide input c).statistical.sums := by
  have hten : (run divide input (c + 12)).statistical.mod10Ex02.quotient =
      divide ((run divide input c).statistical.grayNumer.setWidth 24 * 10)
        (run divide input c).statistical.denom :=
    @Mod10.quotient_delay divide (fun c => (run divide input c).statistical.mod10Ex02)
      (fun c => (run divide input c).statistical.grayNumer.setWidth 24 * 10)
      (fun c => (run divide input c).statistical.denom) (fun _ => rfl) c
  have hgray : (run divide input (c + 12)).statistical.mod10Ex03.quotient =
      divide ((run divide input c).statistical.grayNumer.setWidth 24)
        (run divide input c).statistical.denom :=
    @Mod10.quotient_delay divide (fun c => (run divide input c).statistical.mod10Ex03)
      (fun c => (run divide input c).statistical.grayNumer.setWidth 24)
      (fun c => (run divide input c).statistical.denom) (fun _ => rfl) c
  have hnext : (run divide input (c + 13)).statistical.targetPos =
      if (run divide input (c + 12)).statistical.nearPulseWidth (input (c + 12)).correctPulseWidth
      then (run divide input (c + 12)).statistical.targetPosR0 + 18
      else (run divide input (c + 12)).statistical.targetPosR0 := rfl
  have hnext' : (run divide input (c + 13)).statistical.targetGray =
      (run divide input (c + 12)).statistical.targetGrayR1 := rfl
  rw [hnext, hnext', GridStatistical.State.nearPulseWidth, targetPosR0_delay,
    GridStatistical.State.targetGrayR0, GridStatistical.State.targetGrayR1, hten, hgray]
  refine ⟨?_, rfl⟩
  refine if_congr ?_ rfl rfl
  rw [Bool.and_eq_true, decide_eq_true_eq, decide_eq_true_eq]
  rfl

section Window

variable {divide : BitVec 24 → BitVec 9 → BitVec 24} {input : ℕ → Input} {w : ℕ} {written : Bool}
  {validNumThreshold correctPulseWidth : BitVec 8} (hopens : Opens divide input w)
  (h : Undisturbed input w written validNumThreshold correctPulseWidth)

include hopens h

/-- **The report of a window**, 112 clocks after its toggle was seen. -/
theorem report_of_window :
    (run divide input (w + 112)).statistical.targetValid = true ∧
      (run divide input (w + 112)).statistical.targetPos =
          targetPos divide correctPulseWidth (run divide input (w + 99)).statistical.sums ∧
        (run divide input (w + 112)).statistical.targetGray =
          targetGray divide (run divide input (w + 99)).statistical.sums := by
  have hcs := (cs_eq_clear hopens (k := 108) (by decide)).mpr (by decide)
  have hcnt : (run divide input (w + 108)).statistical.stateCnt = 15 := by
    have hsum := (at_of_opens hopens (k := 108) (by decide)).stateCnt_of_clear hcs
    exact (GridStatistical.stateCnt_eq_iff _ 15 (by decide)).mpr (by omega)
  have hdelay : (run divide input (w + 112)).statistical.targetValid =
      ((run divide input (w + 108)).statistical.cs == .clear &&
        (run divide input (w + 108)).statistical.stateCnt == 15) := rfl
  have hwidth : (input (w + 99 + 12)).correctPulseWidth = correctPulseWidth :=
    h.correctPulseWidth 111 (by decide)
  have hreport := report divide input (w + 99)
  rw [hwidth] at hreport
  exact ⟨by rw [hdelay, hcs, hcnt]; rfl, hreport⟩

end Window

/-! ### Two runs -/

/-- **A window with a reported cell is reported as its cells say.** Two windows with the same cells and
settings have the same report, whatever came before them. -/
theorem report_independent (divide : BitVec 24 → BitVec 9 → BitVec 24) {input input' : ℕ → Input}
    {w w' : ℕ} {written written' : Bool} {validNumThreshold correctPulseWidth : BitVec 8}
    (hopens : Opens divide input w) (hopens' : Opens divide input' w')
    (h : Undisturbed input w written validNumThreshold correctPulseWidth)
    (h' : Undisturbed input' w' written' validNumThreshold correctPulseWidth)
    (hcells : contents divide input w written = contents divide input' w' written')
    (hreported : Reported validNumThreshold (held divide input w written)
      (contents divide input w written))
    (hreported' : Reported validNumThreshold (held divide input' w' written')
      (contents divide input' w' written')) :
    (run divide input (w + 112)).statistical.targetValid = true ∧
      (run divide input' (w' + 112)).statistical.targetValid = true ∧
        (run divide input (w + 112)).statistical.targetPos =
            (run divide input' (w' + 112)).statistical.targetPos ∧
          (run divide input (w + 112)).statistical.targetGray =
            (run divide input' (w' + 112)).statistical.targetGray := by
  obtain ⟨hvalid, hpos, hgray⟩ := report_of_window hopens h
  obtain ⟨hvalid', hpos', hgray'⟩ := report_of_window hopens' h'
  have hsums := sums_of_window hopens (h.calm (by decide)) (k := 99) (by decide) (by decide)
  have hsums' := sums_of_window hopens' (h'.calm (by decide)) (k := 99) (by decide) (by decide)
  rw [if_pos hreported] at hsums
  rw [if_pos hreported', ← hcells] at hsums'
  rw [← hcells] at hreported'
  have hsame : sums validNumThreshold (held divide input w written) (contents divide input w written) =
      sums validNumThreshold (held divide input' w' written') (contents divide input w written) := by
    unfold sums
    rw [fullest_of_held hreported.1, fullest_of_held hreported'.1]
  refine ⟨hvalid, hvalid', ?_, ?_⟩
  · rw [hpos, hpos', hsums, hsums', hsame]
  · rw [hgray, hgray', hsums, hsums', hsame]

/-- `tannis_change_r` has the last two values. -/
theorem changed_add_two (divide : BitVec 24 → BitVec 9 → BitVec 24) (input : ℕ → Input) (c : ℕ) :
    (run divide input (c + 2)).statistical.changed =
      ((input c).tannisChange != (input (c + 1)).tannisChange) := rfl

/-- A word is written into cell 5 before the first window, which is opened by a toggle with clock `start`;
the second window follows as soon as it can. -/
def oneCell (word : BitVec 48) (start c : ℕ) : Input where
  zeroFlag := c == 0
  tannisChange := decide (start ≤ c ∧ c < start + 179)
  validNumThreshold := 10
  correctPulseWidth := 0
  left bank := ⟨false, !bank && c == 0, 5, word⟩

def quotient (numer : BitVec 24) (denom : BitVec 9) : BitVec 24 := numer / denom.setWidth 24

/-- Thirty distances of 2000 mm. -/
def thirty : BitVec 48 := 0x00001e00ea60

theorem gridRam_unwritten (divide : BitVec 24 → BitVec 9 → BitVec 24) {input : ℕ → Input}
    {bank : Bool} (h : ∀ c, ((input c).left bank).wren = false) (c : ℕ) :
    (∀ a, ((run divide input c).gridRam bank).cells a = 0) ∧
      ((run divide input c).gridRam bank).latchB = 0 := by
  induction c with
  | zero => exact ⟨fun _ => rfl, rfl⟩
  | succ c ih =>
      obtain ⟨hcells, hlatch⟩ := ih
      refine ⟨fun a => ?_, ?_⟩
      · rw [cells_succ, if_neg (c := _ ∧ a = ((input c).left bank).addr)
          fun hleft => Bool.false_ne_true ((h c).symm.trans hleft.1), hcells, ite_self]
      · rw [latchB_eq, hcells, hlatch, ite_self, ite_self]

theorem contents_unwritten (divide : BitVec 24 → BitVec 9 → BitVec 24) {input : ℕ → Input}
    {written : Bool} (h : ∀ c, ((input c).left (!written)).wren = false) (w : ℕ) :
    contents divide input w written = (fun _ => 0) ∧ held divide input w written = 0 :=
  ⟨funext (gridRam_unwritten divide h w).1, (gridRam_unwritten divide h (w + 1)).2⟩

theorem opens_oneCell (word : BitVec 48) : Opens quotient (oneCell word 1) 2 := ⟨rfl, rfl⟩

theorem undisturbed_oneCell (word : BitVec 48) (start : ℕ) :
    Undisturbed (oneCell word start) (start + 1) true 10 0 where
  tannisChange k hk := by
    simp only [oneCell, decide_eq_true_eq]
    omega
  left k _ := by simp [oneCell]
  validNumThreshold _ _ := rfl
  correctPulseWidth _ _ := rfl

/-- The second window follows after 179 clocks. -/
theorem opens_second (word : BitVec 48) : Opens quotient (oneCell word 1) (2 + 179) where
  cs := cs_eq_start1 (opens_oneCell word) rfl
  changed := rfl

theorem undisturbed_second (word : BitVec 48) : Undisturbed (oneCell word 1) (2 + 179) false 10 0 where
  tannisChange k hk := by
    simp only [oneCell, decide_eq_false_iff_not]
    omega
  left k _ := by simp [oneCell]
  validNumThreshold _ _ := rfl
  correctPulseWidth _ _ := rfl

theorem contents_oneCell (word : BitVec 48) :
    contents quotient (oneCell word 1) 2 true = Function.update (fun _ => 0) 5 word ∧
      held quotient (oneCell word 1) 2 true = 0 := ⟨rfl, rfl⟩

/-- The second window is empty. -/
theorem contents_second (word : BitVec 48) :
    contents quotient (oneCell word 1) (2 + 179) false = (fun _ => 0) ∧
      held quotient (oneCell word 1) (2 + 179) false = 0 :=
  contents_unwritten quotient (fun _ => rfl) (2 + 179)

theorem not_reported_empty : ¬ Reported 10 0 fun _ => 0 := by decide +kernel

/-- So it is reported as the first. -/
theorem targetPos_second (word : BitVec 48) :
    (run quotient (oneCell word 1) (2 + 179 + 112)).statistical.targetPos =
      targetPos quotient 0
        (if Reported 10 0 (Function.update (fun _ => 0) 5 word) then
          sums 10 0 (Function.update (fun _ => 0) 5 word)
        else ⟨0, 0, 0⟩) := by
  obtain ⟨hcells, hheld⟩ := contents_oneCell word
  obtain ⟨hcells', hheld'⟩ := contents_second word
  have hreport := (report_of_window (opens_second word) (undisturbed_second word)).2.1
  have hsecond := sums_of_window (opens_second word) ((undisturbed_second word).calm (by decide))
    (k := 99) (by decide) (by decide)
  have hfirst := sums_of_window (opens_oneCell word) ((undisturbed_oneCell word 1).calm (by decide))
    (k := 179) (by decide) le_rfl
  have hzero : (run quotient (oneCell word 1) 2).statistical.sums = ⟨0, 0, 0⟩ := rfl
  rw [hcells', hheld', if_neg not_reported_empty] at hsecond
  rw [hcells, hheld, hzero] at hfirst
  rw [hreport, hsecond, hfirst]

/-- The same cell behind another history: the toggle comes one clock later. -/
theorem report_independent_oneCell :
    (run quotient (oneCell thirty 1) (2 + 112)).statistical.targetValid = true ∧
      (run quotient (oneCell thirty 2) (3 + 112)).statistical.targetValid = true ∧
        (run quotient (oneCell thirty 1) (2 + 112)).statistical.targetPos =
            (run quotient (oneCell thirty 2) (3 + 112)).statistical.targetPos ∧
          (run quotient (oneCell thirty 1) (2 + 112)).statistical.targetGray =
            (run quotient (oneCell thirty 2) (3 + 112)).statistical.targetGray := by
  have hcells : contents quotient (oneCell thirty 2) 3 true = Function.update (fun _ => 0) 5 thirty ∧
      held quotient (oneCell thirty 2) 3 true = 0 := ⟨rfl, rfl⟩
  have hreported : Reported 10 0 (Function.update (fun _ => 0) 5 thirty) := by decide +kernel
  refine report_independent quotient (opens_oneCell thirty) ⟨rfl, rfl⟩
    (undisturbed_oneCell thirty 1) (undisturbed_oneCell thirty 2)
    ((contents_oneCell thirty).1.trans hcells.1.symm) ?_ ?_
  · rw [(contents_oneCell thirty).1, (contents_oneCell thirty).2]
    exact hreported
  · rw [hcells.1, hcells.2]
    exact hreported

/-- **An empty window is reported as the one before it.** -/
theorem report_dependent :
    ¬ ∀ (divide : BitVec 24 → BitVec 9 → BitVec 24) (input input' : ℕ → Input) (w w' : ℕ)
        (written written' : Bool) (validNumThreshold correctPulseWidth : BitVec 8),
      Opens divide input w → Opens divide input' w' →
        Undisturbed input w written validNumThreshold correctPulseWidth →
          Undisturbed input' w' written' validNumThreshold correctPulseWidth →
            contents divide input w written = contents divide input' w' written' →
              (run divide input (w + 112)).statistical.targetPos =
                  (run divide input' (w' + 112)).statistical.targetPos ∧
                (run divide input (w + 112)).statistical.targetGray =
                  (run divide input' (w' + 112)).statistical.targetGray := by
  intro hall
  have hsame := (hall quotient (oneCell thirty 1) (oneCell 0 1) (2 + 179) (2 + 179) false false 10 0
    (opens_second _) (opens_second _) (undisturbed_second _) (undisturbed_second _)
    ((contents_second thirty).1.trans (contents_second 0).1.symm)).1
  rw [targetPos_second, targetPos_second] at hsame
  exact absurd hsame (by decide +kernel)

end Readout

end SingleScan
