import SingleScan.Readout
import SingleScan.Lib.Fullest
import SingleScan.Proof.Windows

/-!
# One clock of the statistics

The report of a window as a function of its cells, and what one clock of `grid_statistical` does: a word
is offered to the scan, the words of `RESULT` are kept, and the sums are taken.
-/

namespace SingleScan

open Clocked GridDivision

/-! ### The report as a function of the cells -/

namespace Readout

section Cells

variable (validNumThreshold : BitVec 8) (held : BitVec 48) (cells : BitVec 8 → BitVec 48)

/-- The number of distances of cell `n`. -/
def count (n : ℕ) : ℕ := (number (cells (BitVec.ofNat 8 n))).toNat

/-- The number and the place of the fullest cell among the first `n`. The scan begins with the word that
the port still holds, and takes the cells from 80 on only if it has found less than `VALID_NUM_THRESHOLD`
distances before. -/
def fullest (n : ℕ) : ℕ × ℕ :=
  Scan.fullest (count cells) (fun n best => n < 80 || best < validNumThreshold.toNat)
    (number held).toNat n

/-- The window has a cell that is reported. Cell 82 is what the port gives before the cells are read
again. -/
def Reported : Prop :=
  (fullest validNumThreshold held cells 82).2 ≠ 0 ∧
    20 ≤ (fullest validNumThreshold held cells 82).1 ∧
    count cells 82 ≤ (fullest validNumThreshold held cells 82).1

instance : Decidable (Reported validNumThreshold held cells) := by
  unfold Reported
  infer_instance

end Cells

/-- What is divided: `pos_numer`, `denom` and `gray_numer`. -/
structure Sums where
  posNumer : BitVec 24
  denom : BitVec 9
  grayNumer : BitVec 16
deriving DecidableEq

/-- The sums of one cell. -/
def Sums.cell (info : BitVec 48) : Sums := ⟨value info, (number info).setWidth 9, gray info⟩

def Sums.add (a b : Sums) : Sums :=
  ⟨a.posNumer + b.posNumer, a.denom + b.denom, a.grayNumer + b.grayNumer⟩

/-- The cell and the fuller one of the neighbours that have more than a sixteenth of its distances. -/
def Sums.around (before middle after : BitVec 48) : Sums :=
  let limit := (number middle).toNat / 16
  if (number before).toNat ≤ limit ∧ (number after).toNat ≤ limit then .cell middle
  else if limit < (number before).toNat ∧ (number after).toNat < (number before).toNat then
    (Sums.cell middle).add (.cell before)
  else (Sums.cell middle).add (.cell after)

/-- The sums of the fullest cell. -/
def sums (validNumThreshold : BitVec 8) (held : BitVec 48) (cells : BitVec 8 → BitVec 48) : Sums :=
  let pos := BitVec.ofNat 8 (fullest validNumThreshold held cells 82).2
  .around (cells (pos - 1)) (cells pos) (cells (pos + 1))

/-- `target_pos`, out of the sums. -/
def targetPos (divide : BitVec 24 → BitVec 9 → BitVec 24) (correctPulseWidth : BitVec 8) (s : Sums) :
    BitVec 16 :=
  let gray := ((divide (s.grayNumer.setWidth 24 * 10) s.denom).setWidth 16).toNat
  let pos := (divide s.posNumer s.denom).setWidth 16
  if (correctPulseWidth.setWidth 32 - 3).toNat ≤ gray ∧
      gray < (correctPulseWidth.setWidth 32 + 3).toNat then pos + 18
  else pos

/-- `target_gray`, out of the sums. -/
def targetGray (divide : BitVec 24 → BitVec 9 → BitVec 24) (s : Sums) : BitVec 16 :=
  (divide (s.grayNumer.setWidth 24) s.denom).setWidth 16

section Cells

variable {validNumThreshold : BitVec 8} {held : BitVec 48} {cells : BitVec 8 → BitVec 48}

theorem fullest_succ (n : ℕ) : fullest validNumThreshold held cells (n + 1) =
    if (fullest validNumThreshold held cells n).1 < count cells n ∧
        (n < 80 || (fullest validNumThreshold held cells n).1 < validNumThreshold.toNat) = true then
      (count cells n, n)
    else fullest validNumThreshold held cells n := rfl

theorem fullest_mono {m n : ℕ} (hmn : m ≤ n) :
    (fullest validNumThreshold held cells m).1 ≤ (fullest validNumThreshold held cells n).1 :=
  Scan.fullest_mono hmn

theorem fullest_place_lt {n : ℕ} (hn : 0 < n) : (fullest validNumThreshold held cells n).2 < n :=
  Scan.fullest_place_lt hn

theorem count_le_fullest {m n : ℕ} (hmn : m < n) (hm : m < 80) :
    count cells m ≤ (fullest validNumThreshold held cells n).1 :=
  Scan.le_fullest hmn (by simp [hm])

/-- A place other than 0 does not depend on the word that the port still held. -/
theorem fullest_of_held {n : ℕ} (hplace : (fullest validNumThreshold held cells n).2 ≠ 0) :
    fullest validNumThreshold held cells n = fullest validNumThreshold 0 cells n := by
  refine (Scan.fullest_of_start (Nat.zero_le _) (fun hle hadmits => ?_) (fun hadmits => ?_) n
    hplace).symm
  · simp only [Bool.or_eq_true, decide_eq_true_eq] at hadmits ⊢
    omega
  · simp only [Bool.or_eq_true, decide_eq_true_eq] at hadmits ⊢
    omega

/-- The word at the place of the fullest cell is not fuller, and no word before it. -/
theorem count_place_le :
    count cells (fullest validNumThreshold held cells 82).2 ≤
        (fullest validNumThreshold held cells 82).1 ∧
      ((fullest validNumThreshold held cells 82).2 ≠ 0 →
        count cells ((fullest validNumThreshold held cells 82).2 - 1) ≤
          (fullest validNumThreshold held cells 82).1) := by
  have hplaces : fullest validNumThreshold held cells 82 = ((number held).toNat, 0) ∨
      ∃ m < 82, fullest validNumThreshold held cells 82 = (count cells m, m) ∧
        (m < 80 || (fullest validNumThreshold held cells m).1 < validNumThreshold.toNat) = true :=
    Scan.fullest_place 82
  rcases hplaces with hstart | ⟨m, hm, hplace, hadmits⟩
  · have hzero : count cells 0 ≤ (fullest validNumThreshold held cells 82).1 :=
      count_le_fullest (by decide) (by decide)
    rw [hstart] at hzero ⊢
    exact ⟨hzero, fun h => absurd rfl h⟩
  · rw [hplace]
    refine ⟨le_rfl, fun hpos => ?_⟩
    have hpos' : 0 < m := Nat.pos_of_ne_zero hpos
    have hle : (fullest validNumThreshold held cells m).1 ≤
        (fullest validNumThreshold held cells 82).1 := fullest_mono (by omega)
    have hbefore : count cells (m - 1) ≤ (fullest validNumThreshold held cells m).1 := by
      refine Scan.le_fullest (by omega) ?_
      have hsmaller : (fullest validNumThreshold held cells (m - 1)).1 ≤
          (fullest validNumThreshold held cells m).1 := fullest_mono (by omega)
      change (m - 1 < 80 || (fullest validNumThreshold held cells (m - 1)).1 <
        validNumThreshold.toNat) = true
      simp only [Bool.or_eq_true, decide_eq_true_eq] at hadmits ⊢
      omega
    rw [hplace] at hle
    exact hbefore.trans hle

end Cells

end Readout

namespace GridStatistical

open Readout (Sums)

variable {s : State}

/-- A word that is taken by the scan. -/
def Offered (s : State) (validNumThreshold : BitVec 8) (data : BitVec 48) : Prop :=
  s.curRangePointNumber.toNat < (number data).toNat ∧
    (s.rightAddr false = 82 ∨ s.rightAddr true = 82 →
      s.curRangePointNumber.toNat < validNumThreshold.toNat)

theorem scanStep_of_valid (hclear : ¬ (s.cs = .clear ∧ s.stateCnt = 20))
    (hvalid : s.ramDataValidR1 = true) (validNumThreshold : BitVec 8) (data : BitVec 48) :
    (Offered s validNumThreshold data → scanStep s validNumThreshold data =
        { s with curRangePointNumber := number data, maxRangePointPos := s.ramDataCnt }) ∧
      (¬ Offered s validNumThreshold data → scanStep s validNumThreshold data = s) := by
  unfold scanStep Offered
  rw [if_neg hclear, if_pos hvalid]
  constructor
  · rintro ⟨hmore, hlast⟩
    rw [if_pos hmore]
    split
    · rename_i haddr
      rw [if_pos (hlast haddr)]
    · rfl
  · intro hnot
    split
    · rename_i hmore
      split
      · rename_i haddr
        exact if_neg fun hlt => hnot ⟨hmore, fun _ => hlt⟩
      · rename_i haddr
        exact absurd ⟨hmore, fun h => absurd h haddr⟩ hnot
    · rfl

theorem scanStep_of_not_valid (hclear : ¬ (s.cs = .clear ∧ s.stateCnt = 20))
    (hvalid : s.ramDataValidR1 = false) (validNumThreshold : BitVec 8) (data : BitVec 48) :
    scanStep s validNumThreshold data = s := by
  rw [scanStep, if_neg hclear, if_neg (by simp [hvalid])]

theorem not_offered_of_le {validNumThreshold : BitVec 8} {data : BitVec 48}
    (hle : (number data).toNat ≤ s.curRangePointNumber.toNat) : ¬ Offered s validNumThreshold data :=
  fun hoffered => absurd hoffered.1 (Nat.not_lt.mpr hle)

/-- The registers of the scan hold a number and a place. -/
def State.Shows (s : State) (best : ℕ × ℕ) : Prop :=
  s.curRangePointNumber.toNat = best.1 ∧ s.maxRangePointPos = BitVec.ofNat 8 best.2

theorem infoStep_before (hcs : s.cs = .result) (hcnt : s.stateCnt = 0) (data : BitVec 48) :
    infoStep s data = { s with beforeInfo := data } := by
  rw [infoStep, if_neg (by simp [hcs]), if_pos hcs, if_pos hcnt]

theorem infoStep_middle (hcs : s.cs = .result) (hcnt : s.stateCnt = 1) (data : BitVec 48) :
    infoStep s data = { s with middleInfo := data } := by
  rw [infoStep, if_neg (by simp [hcs]), if_pos hcs, hcnt, if_neg (by decide), if_pos rfl]

theorem infoStep_after (hcs : s.cs = .result) (hcnt : s.stateCnt = 2) (data : BitVec 48) :
    infoStep s data = { s with afterInfo := data } := by
  rw [infoStep, if_neg (by simp [hcs]), if_pos hcs, hcnt, if_neg (by decide), if_neg (by decide),
    if_pos rfl]

theorem infoStep_of_clear (hcs : s.cs = .clear) (data : BitVec 48) : infoStep s data = s := by
  rw [infoStep, if_neg (by simp [hcs]), if_neg (by simp [hcs])]

/-- The registers that the divider reads. -/
def State.sums (s : State) : Sums := ⟨s.posNumer, s.denom, s.grayNumer⟩

/-- The cell is one that is reported. -/
def State.Counts (s : State) : Prop :=
  s.maxRangePointPos ≠ 0 ∧ 20 ≤ s.curRangePointNumber.toNat

theorem mergeStep_sums (h : s.cs = .clear ∧ s.stateCnt = 2) (hcounts : s.Counts) :
    (mergeStep s).sums = Sums.around s.beforeInfo s.middleInfo s.afterInfo := by
  have hcounts' : s.maxRangePointPos ≠ 0 ∧ 20 ≤ s.curRangePointNumber.toNat := hcounts
  unfold mergeStep Sums.around
  rw [if_pos h, if_pos hcounts']
  dsimp only
  split
  · rfl
  · split_ifs <;> first | rfl | omega

theorem mergeStep_of_not_counts (hcounts : ¬ s.Counts) : mergeStep s = s := by
  have hcounts' : ¬ (s.maxRangePointPos ≠ 0 ∧ 20 ≤ s.curRangePointNumber.toNat) := hcounts
  rw [mergeStep, if_neg hcounts', ite_self]

theorem mergeStep_of_ne (h : ¬ (s.cs = .clear ∧ s.stateCnt = 2)) : mergeStep s = s := if_neg h

/-! ### Between the windows -/

/-- No word is valid, and the fullest cell is forgotten. -/
structure State.Rested (s : State) : Prop where
  valid0 : s.ramDataValidR0 = false
  valid1 : s.ramDataValidR1 = false
  valid2 : s.ramDataValidR2 = false
  number : s.curRangePointNumber = 0
  pos : s.maxRangePointPos = 0

/-- A window begins with a state at rest: the scan is long over, and `CLEAR` forgets its result. -/
def State.Settled (s : State) : Prop :=
  match s.cs with
  | .idle | .start1 => s.Rested ∧ ∀ bank, s.rightWren bank = false
  | .clear =>
      (0 < s.stateCnt.toNat → s.ramDataValidR0 = false) ∧
        (1 < s.stateCnt.toNat → s.ramDataValidR1 = false) ∧
          (2 < s.stateCnt.toNat → s.ramDataValidR2 = false) ∧
            (20 < s.stateCnt.toNat → s.curRangePointNumber = 0 ∧ s.maxRangePointPos = 0)
  | .reset => s.Rested
  | _ => True

section Settled

variable (divide : BitVec 24 → BitVec 9 → BitVec 24) (i : Input) (rddata : Bool → BitVec 48)

theorem State.Rested.step (h : s.Rested) (hcs : s.cs = .idle ∨ s.cs = .start1 ∨ s.cs = .reset) :
    (step divide s i rddata).Rested ∧ ∀ bank, (step divide s i rddata).rightWren bank = false := by
  have hscan : scanStep s i.validNumThreshold (rddata (!i.tannisChange)) = s :=
    scanStep_of_not_valid (by rcases hcs with hcs | hcs | hcs <;> simp [hcs]) h.valid1 _ _
  refine ⟨⟨?_, h.valid0, h.valid1, ?_, ?_⟩, fun bank => ?_⟩
  · change (s.cs == .count || s.cs == .reRead) = false
    rcases hcs with hcs | hcs | hcs <;> rw [hcs] <;> rfl
  · exact (congrArg State.curRangePointNumber hscan).trans h.number
  · exact (congrArg State.maxRangePointPos hscan).trans h.pos
  · change (bank != i.tannisChange && s.cs == .clear) = false
    rcases hcs with hcs | hcs | hcs <;> rw [hcs] <;> exact Bool.and_false _

theorem State.Settled.step (h : s.Settled) : (step divide s i rddata).Settled := by
  have hnext : (GridStatistical.step divide s i rddata).cs = s.ns i.zeroFlag := rfl
  unfold State.Settled at h ⊢
  rw [hnext]
  cases hcs : s.cs with
  | idle =>
      rw [hcs] at h
      have hrested := h.1.step divide i rddata (.inl hcs)
      cases hzero : i.zeroFlag <;> simpa [Control.ns, hcs] using hrested
  | start1 =>
      rw [hcs] at h
      have hrested := h.1.step divide i rddata (.inr (.inl hcs))
      cases hchanged : s.changed <;> simp [Control.ns, hcs, hchanged, hrested]
  | reset =>
      rw [hcs] at h
      have hrested := h.step divide i rddata (.inr (.inr hcs))
      simpa [Control.ns, hcs] using hrested
  | clear =>
      rw [hcs] at h
      obtain ⟨h0, h1, h2, hforgot⟩ := h
      have hvalid0 : (GridStatistical.step divide s i rddata).ramDataValidR0 = false := by
        change (s.cs == .count || s.cs == .reRead) = false
        rw [hcs]
        rfl
      have h84 := stateCnt_eq_iff s.toControl 84 (by decide)
      have hscan : 20 ≤ s.stateCnt.toNat →
          (scanStep s i.validNumThreshold (rddata (!i.tannisChange))).curRangePointNumber = 0 ∧
            (scanStep s i.validNumThreshold (rddata (!i.tannisChange))).maxRangePointPos = 0 := by
        intro hle
        by_cases hcnt : s.stateCnt = 20
        · rw [scanStep, if_pos ⟨hcs, hcnt⟩]
          exact ⟨rfl, rfl⟩
        · have hlt : 20 < s.stateCnt.toNat :=
            Nat.lt_of_le_of_ne hle fun he =>
              hcnt ((stateCnt_eq_iff s.toControl 20 (by decide)).mpr he.symm)
          rw [scanStep_of_not_valid (fun hclear => hcnt hclear.2) (h1 (by omega)) _ _]
          exact hforgot hlt
      by_cases hlast : s.stateCnt = 84
      · have hns : s.ns i.zeroFlag = .reset := by simp [Control.ns, hcs, hlast]
        have hcnt := h84.mp hlast
        rw [hns]
        exact ⟨hvalid0, h0 (by omega), h1 (by omega), (hscan (by omega)).1, (hscan (by omega)).2⟩
      · have hns : s.ns i.zeroFlag = .clear := by
          rw [Control.ns, hcs]
          exact if_neg hlast
        have hcnt : (GridStatistical.step divide s i rddata).stateCnt.toNat =
            (s.stateCnt.toNat + 1) % 2 ^ 16 := by
          have hstep : (GridStatistical.step divide s i rddata).stateCnt =
              if s.cs ≠ s.ns i.zeroFlag then 0 else s.stateCnt + 1 := rfl
          rw [hstep, hns, hcs, if_neg (by simp), BitVec.toNat_add]
          rfl
        rw [hns]
        dsimp only
        rw [hcnt]
        exact ⟨fun _ => hvalid0, fun hlt => h0 (by omega), fun hlt => h1 (by omega),
          fun hlt => hscan (by omega)⟩
  | count =>
      rw [Control.ns, hcs]
      dsimp only
      by_cases hlast : s.stateCnt = 82
      · rw [if_pos hlast]
        trivial
      · rw [if_neg hlast]
        trivial
  | wait =>
      rw [Control.ns, hcs]
      dsimp only
      by_cases hlast : s.stateCnt = 2
      · rw [if_pos hlast]
        trivial
      · rw [if_neg hlast]
        trivial
  | reRead =>
      rw [Control.ns, hcs]
      dsimp only
      by_cases hlast : s.stateCnt = 2
      · rw [if_pos hlast]
        trivial
      · rw [if_neg hlast]
        trivial
  | result =>
      by_cases hlast : s.stateCnt = 2
      · have hns : s.ns i.zeroFlag = .clear := by
          rw [Control.ns, hcs]
          exact if_pos hlast
        have hzero : (GridStatistical.step divide s i rddata).stateCnt.toNat = 0 := by
          have hstep : (GridStatistical.step divide s i rddata).stateCnt =
              if s.cs ≠ s.ns i.zeroFlag then 0 else s.stateCnt + 1 := rfl
          rw [hstep, hns, hcs, if_pos (by simp)]
          rfl
        rw [hns]
        dsimp only
        rw [hzero]
        exact ⟨fun h => absurd h (by decide), fun h => absurd h (by decide),
          fun h => absurd h (by decide), fun h => absurd h (by decide)⟩
      · have hns : s.ns i.zeroFlag = .result := by
          rw [Control.ns, hcs]
          exact if_neg hlast
        rw [hns]
        trivial

end Settled

end GridStatistical

end SingleScan
