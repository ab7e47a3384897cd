import Mathlib.Algebra.GroupWithZero.Nat
import SingleScan.Proof.GridStatistical

/-!
# The clocks of a window

In clock `w` a toggle is seen. The cells are asked for from clock `w + 1` on and are scanned from clock
`w + 4` on; the fullest one is read again with its neighbours, and its sums are taken with clock `w + 95`.
-/

namespace SingleScan

open Clocked GridDivision

namespace Readout

variable (divide : BitVec 24 → BitVec 9 → BitVec 24) (input : ℕ → Input)

/-- The state before clock `c`, from power-up. -/
def run (c : ℕ) : State := trace (step divide) State.powerUp input c

/-- In clock `w` a toggle is seen, and the scan begins. -/
structure Opens (w : ℕ) : Prop where
  cs : (run divide input w).statistical.cs = .start1
  changed : (run divide input w).statistical.changed = true

/-- Up to its report a window is left alone: `tannis_change` stands at `written`, the other bank is not
written, and neither are the settings. -/
structure Undisturbed (w : ℕ) (written : Bool) (validNumThreshold correctPulseWidth : BitVec 8) :
    Prop where
  tannisChange : ∀ k < 112, (input (w + k)).tannisChange = written
  left : ∀ k < 112, ((input (w + k)).left (!written)).wren = false
  validNumThreshold : ∀ k < 112, (input (w + k)).validNumThreshold = validNumThreshold
  correctPulseWidth : ∀ k < 112, (input (w + k)).correctPulseWidth = correctPulseWidth

/-- For `n` clocks a window is left alone. -/
structure Calm (n w : ℕ) (written : Bool) (validNumThreshold : BitVec 8) : Prop where
  tannisChange : ∀ k < n, (input (w + k)).tannisChange = written
  left : ∀ k < n, ((input (w + k)).left (!written)).wren = false
  validNumThreshold : ∀ k < n, (input (w + k)).validNumThreshold = validNumThreshold

/-- What the bank holds that is read. -/
def contents (w : ℕ) (written : Bool) : BitVec 8 → BitVec 48 :=
  ((run divide input w).gridRam (!written)).cells

/-- The word that its port has read before the scan. -/
def held (w : ℕ) (written : Bool) : BitVec 48 :=
  ((run divide input (w + 1)).gridRam (!written)).latchB

/-- The fullest cell of the bank. -/
def best (w : ℕ) (written : Bool) (validNumThreshold : BitVec 8) : ℕ × ℕ :=
  fullest validNumThreshold (held divide input w written) (contents divide input w written) 82

section Succ

variable (c : ℕ)

theorem statistical_succ : (run divide input (c + 1)).statistical =
    GridStatistical.step divide (run divide input c).statistical (input c).toInput
      fun bank => ((run divide input c).gridRam bank).qB := rfl

theorem ramDataCnt_succ : (run divide input (c + 1)).statistical.ramDataCnt =
    if (run divide input c).statistical.ramDataValidR2 then
      (run divide input c).statistical.ramDataCnt + 1
    else 0 := rfl

theorem scan_succ :
    (run divide input (c + 1)).statistical.curRangePointNumber =
        (GridStatistical.scanStep (run divide input c).statistical (input c).validNumThreshold
          ((run divide input c).gridRam (!(input c).tannisChange)).qB).curRangePointNumber ∧
      (run divide input (c + 1)).statistical.maxRangePointPos =
        (GridStatistical.scanStep (run divide input c).statistical (input c).validNumThreshold
          ((run divide input c).gridRam (!(input c).tannisChange)).qB).maxRangePointPos :=
  ⟨rfl, rfl⟩

theorem info_succ :
    (run divide input (c + 1)).statistical.beforeInfo =
        (GridStatistical.infoStep (run divide input c).statistical
          ((run divide input c).gridRam (!(input c).tannisChange)).qB).beforeInfo ∧
      (run divide input (c + 1)).statistical.middleInfo =
        (GridStatistical.infoStep (run divide input c).statistical
          ((run divide input c).gridRam (!(input c).tannisChange)).qB).middleInfo ∧
      (run divide input (c + 1)).statistical.afterInfo =
        (GridStatistical.infoStep (run divide input c).statistical
          ((run divide input c).gridRam (!(input c).tannisChange)).qB).afterInfo :=
  ⟨rfl, rfl, rfl⟩

theorem sums_succ : (run divide input (c + 1)).statistical.sums =
    (GridStatistical.mergeStep (run divide input c).statistical).sums := rfl

theorem gridRam_succ (bank : Bool) : (run divide input (c + 1)).gridRam bank =
    GridRam.step ((run divide input c).gridRam bank) ((input c).left bank)
      ((run divide input c).rightPort bank) := rfl

theorem write_apply (cells : BitVec 8 → BitVec 48) (port : RamPort) (a : BitVec 8) :
    GridRam.write cells port a = if port.wren = true ∧ a = port.addr then port.data else cells a := by
  unfold GridRam.write
  by_cases hwren : port.wren = true
  · rw [if_pos hwren, Function.update_apply]
    simp [hwren]
  · simp [hwren]

theorem cells_succ (bank : Bool) (a : BitVec 8) : ((run divide input (c + 1)).gridRam bank).cells a =
    if (run divide input c).statistical.rightWren bank = true ∧
        a = (run divide input c).statistical.rightAddr bank then 0
    else if ((input c).left bank).wren = true ∧ a = ((input c).left bank).addr then
      ((input c).left bank).data
    else ((run divide input c).gridRam bank).cells a := by
  have hcells : ((run divide input (c + 1)).gridRam bank).cells =
      GridRam.write (GridRam.write ((run divide input c).gridRam bank).cells
        ((input c).left bank)) ((run divide input c).rightPort bank) := rfl
  rw [hcells, write_apply, write_apply]
  rfl

theorem latchB_eq (bank : Bool) : ((run divide input (c + 1)).gridRam bank).latchB =
    if (run divide input c).statistical.rightRden bank = true then
      if (run divide input c).statistical.rightWren bank = true then 0
      else ((run divide input c).gridRam bank).cells ((run divide input c).statistical.rightAddr bank)
    else ((run divide input c).gridRam bank).latchB := by
  have hread : ((run divide input (c + 1)).gridRam bank).latchB =
      if (run divide input c).statistical.rightRden bank = true then
        GridRam.write ((run divide input c).gridRam bank).cells ((run divide input c).rightPort bank)
          ((run divide input c).statistical.rightAddr bank)
      else ((run divide input c).gridRam bank).latchB := rfl
  rw [hread, write_apply]
  simp only [State.rightPort, and_true]

end Succ

variable {divide input}

theorem settled (c : ℕ) : (run divide input c).statistical.Settled := by
  induction c with
  | zero => exact ⟨⟨rfl, rfl, rfl, rfl, rfl⟩, fun _ => rfl⟩
  | succ c ih =>
      rw [statistical_succ]
      exact ih.step _ _ _

variable {n w : ℕ} {written : Bool} {validNumThreshold correctPulseWidth : BitVec 8}

theorem Undisturbed.calm (h : Undisturbed input w written validNumThreshold correctPulseWidth)
    (hn : n ≤ 112) : Calm input n w written validNumThreshold where
  tannisChange k hk := h.tannisChange k (hk.trans_le hn)
  left k hk := h.left k (hk.trans_le hn)
  validNumThreshold k hk := h.validNumThreshold k (hk.trans_le hn)

theorem Calm.mono (h : Calm input n w written validNumThreshold) {m : ℕ} (hm : m ≤ n) :
    Calm input m w written validNumThreshold where
  tannisChange k hk := h.tannisChange k (hk.trans_le hm)
  left k hk := h.left k (hk.trans_le hm)
  validNumThreshold k hk := h.validNumThreshold k (hk.trans_le hm)

/-- The address of the bank that is read is that of one clock before. -/
theorem rightAddr_of_selected (divide : BitVec 24 → BitVec 9 → BitVec 24) {c : ℕ}
    (hselected : (input c).tannisChange = written) :
    (run divide input (c + 1)).statistical.rightAddr (!written) =
        GridStatistical.nextAddr (run divide input c).statistical
          ((run divide input c).statistical.rightAddr (!written)) ∧
      (run divide input (c + 1)).statistical.rightAddr written = 0 := by
  have hport (bank : Bool) : (run divide input (c + 1)).statistical.rightAddr bank =
      if bank ≠ (input c).tannisChange then
        GridStatistical.nextAddr (run divide input c).statistical
          ((run divide input c).statistical.rightAddr bank)
      else 0 := rfl
  rw [hport, hport, hselected]
  exact ⟨if_pos (Bool.not_ne_self _), if_neg fun hne => hne rfl⟩

theorem Calm.rightAddr_succ (h : Calm input n w written validNumThreshold)
    (divide : BitVec 24 → BitVec 9 → BitVec 24) {k : ℕ} (hk : k < n) :
    (run divide input (w + (k + 1))).statistical.rightAddr (!written) =
        GridStatistical.nextAddr (run divide input (w + k)).statistical
          ((run divide input (w + k)).statistical.rightAddr (!written)) ∧
      (run divide input (w + (k + 1))).statistical.rightAddr written = 0 :=
  rightAddr_of_selected divide (h.tannisChange k hk)

theorem Calm.addr_eq_82_iff (h : Calm input n w written validNumThreshold)
    (divide : BitVec 24 → BitVec 9 → BitVec 24) {k : ℕ} (hk : k < n) :
    ((run divide input (w + (k + 1))).statistical.rightAddr false = 82 ∨
        (run divide input (w + (k + 1))).statistical.rightAddr true = 82) ↔
      (run divide input (w + (k + 1))).statistical.rightAddr (!written) = 82 := by
  have hother := (h.rightAddr_succ divide hk).2
  have hzero : ¬ (0 : BitVec 8) = 82 := by decide
  cases written with
  | false =>
      rw [hother]
      exact or_iff_right hzero
  | true =>
      rw [hother]
      exact or_iff_left hzero

section Window

variable (hopens : Opens divide input w)

include hopens

theorem rested : (run divide input w).statistical.Rested ∧
    ∀ bank, (run divide input w).statistical.rightWren bank = false := by
  have hsettled : (run divide input w).statistical.Settled := settled w
  unfold GridStatistical.State.Settled at hsettled
  rw [hopens.cs] at hsettled
  exact hsettled

/-! ### The control of a window -/

theorem at_of_opens {k : ℕ} (hk : k ≤ 179) : (run divide input (w + k)).statistical.At (k + 1) := by
  induction k with
  | zero =>
      unfold GridStatistical.Control.At
      rw [Nat.add_zero, hopens.cs]
      exact .inl (by decide)
  | succ k ih =>
      have hat := ih (by omega)
      refine hat.step (fun hcs => ?_) _ _
      unfold GridStatistical.Control.At at hat
      rw [hcs] at hat
      obtain rfl : k = 0 := by
        rcases hat with hlt | hle <;> omega
      exact iff_of_true hopens.changed rfl

theorem cs_eq_clear {k : ℕ} (hk : k ≤ 179) :
    (run divide input (w + k)).statistical.cs = .clear ↔ 93 ≤ k ∧ k < 178 := by
  rw [(at_of_opens hopens hk).cs_eq_clear]
  omega

theorem not_forget {k : ℕ} (hk : k < 112) : ¬ ((run divide input (w + k)).statistical.cs = .clear ∧
    (run divide input (w + k)).statistical.stateCnt = 20) := by
  rintro ⟨hcs, hcnt⟩
  have hsum := (at_of_opens hopens (k := k) (by omega)).stateCnt_of_clear hcs
  have hcnt' := (GridStatistical.stateCnt_eq_iff _ 20 (by decide)).mp hcnt
  omega

theorem cs_eq_start1 {k : ℕ} (hk : k = 179) :
    (run divide input (w + k)).statistical.cs = .start1 :=
  (at_of_opens hopens (by omega)).cs_of_le (by omega)

theorem asks {k : ℕ} (hk : k ≤ 179) :
    ((run divide input (w + k)).statistical.cs == .count ||
        (run divide input (w + k)).statistical.cs == .reRead) =
      decide (1 ≤ k ∧ k < 84 ∨ 87 ≤ k ∧ k < 90) := by
  have hat := at_of_opens hopens hk
  rw [Bool.eq_iff_iff, Bool.or_eq_true, beq_iff_eq, beq_iff_eq, hat.cs_eq_count, hat.cs_eq_reRead,
    decide_eq_true_eq]
  omega

/-- Their words are scanned two clocks later. -/
theorem valid1 {k : ℕ} (hk : k ≤ 179) : (run divide input (w + k)).statistical.ramDataValidR1 =
    decide (3 ≤ k ∧ k < 86 ∨ 89 ≤ k ∧ k < 92) := by
  match k, hk with
  | 0, _ => exact (rested hopens).1.valid1
  | 1, _ => exact (rested hopens).1.valid0
  | k + 2, hk =>
      have hdelay : (run divide input (w + (k + 2))).statistical.ramDataValidR1 =
          ((run divide input (w + k)).statistical.cs == .count ||
            (run divide input (w + k)).statistical.cs == .reRead) := rfl
      rw [hdelay, asks hopens (by omega), decide_eq_decide]
      omega

theorem valid2 {k : ℕ} (hk : k ≤ 179) : (run divide input (w + k)).statistical.ramDataValidR2 =
    decide (4 ≤ k ∧ k < 87 ∨ 90 ≤ k ∧ k < 93) := by
  cases k with
  | zero => exact (rested hopens).1.valid2
  | succ k =>
      have hdelay : (run divide input (w + (k + 1))).statistical.ramDataValidR2 =
          (run divide input (w + k)).statistical.ramDataValidR1 := rfl
      rw [hdelay, valid1 hopens (by omega), decide_eq_decide]
      omega

theorem ramDataCnt_scan {n : ℕ} (hn : n ≤ 82) :
    (run divide input (w + (n + 4))).statistical.ramDataCnt = BitVec.ofNat 8 n := by
  induction n with
  | zero =>
      have hlow := valid2 hopens (k := 3) (by decide)
      have hzero := ramDataCnt_succ divide input (w + 3)
      rw [hlow] at hzero
      exact hzero
  | succ n ih =>
      have hhigh := valid2 hopens (k := n + 4) (by omega)
      have hnext := ramDataCnt_succ divide input (w + (n + 4))
      rw [hhigh, if_pos (by simp; omega), ih (by omega)] at hnext
      rw [BitVec.ofNat_add]
      exact hnext

theorem scan_quiet {k : ℕ} (hk : k < 112) (hquiet : ¬ (3 ≤ k ∧ k < 86 ∨ 89 ≤ k ∧ k < 92)) :
    (run divide input (w + (k + 1))).statistical.curRangePointNumber =
        (run divide input (w + k)).statistical.curRangePointNumber ∧
      (run divide input (w + (k + 1))).statistical.maxRangePointPos =
        (run divide input (w + k)).statistical.maxRangePointPos := by
  have hvalid := valid1 hopens (k := k) (by omega)
  rw [decide_eq_false hquiet] at hvalid
  have hscan := scan_succ divide input (w + k)
  rw [GridStatistical.scanStep_of_not_valid (not_forget hopens hk) hvalid] at hscan
  exact hscan

/-- The sums are taken once, three clocks into `CLEAR`. -/
theorem sums_keep {k : ℕ} (hk : k ≤ 178) (hne : k ≠ 95) :
    (run divide input (w + (k + 1))).statistical.sums = (run divide input (w + k)).statistical.sums := by
  have hsums := sums_succ divide input (w + k)
  rw [GridStatistical.mergeStep_of_ne] at hsums
  · exact hsums
  · rintro ⟨hcs, hcnt⟩
    have hsum := (at_of_opens hopens (k := k) (by omega)).stateCnt_of_clear hcs
    have hcnt' := (GridStatistical.stateCnt_eq_iff _ 2 (by decide)).mp hcnt
    omega

theorem sums_before {k : ℕ} (hk : k ≤ 95) :
    (run divide input (w + k)).statistical.sums = (run divide input w).statistical.sums := by
  induction k with
  | zero => rfl
  | succ k ih => rw [sums_keep hopens (by omega) (by omega), ih (by omega)]

theorem merges : (run divide input (w + 95)).statistical.cs = .clear ∧
    (run divide input (w + 95)).statistical.stateCnt = 2 := by
  have hcs := (cs_eq_clear hopens (k := 95) (by decide)).mpr (by decide)
  have hsum := (at_of_opens hopens (k := 95) (by decide)).stateCnt_of_clear hcs
  exact ⟨hcs, (GridStatistical.stateCnt_eq_iff _ 2 (by decide)).mpr (by omega)⟩

theorem sums_after {k : ℕ} (hlo : 96 ≤ k) (hhi : k ≤ 179) :
    (run divide input (w + k)).statistical.sums =
      (GridStatistical.mergeStep (run divide input (w + 95)).statistical).sums := by
  induction k, hlo using Nat.le_induction with
  | base => exact sums_succ divide input (w + 95)
  | succ k hlo ih => rw [sums_keep hopens (by omega) (by omega), ih (by omega)]

/-! ### The ports -/

theorem rightWren_of_le {k : ℕ} (hk : k ≤ 93) (bank : Bool) :
    (run divide input (w + k)).statistical.rightWren bank = false := by
  cases k with
  | zero => exact (rested hopens).2 bank
  | succ k =>
      have hport : (run divide input (w + (k + 1))).statistical.rightWren bank =
          (bank != (input (w + k)).tannisChange &&
            (run divide input (w + k)).statistical.cs == .clear) := rfl
      have hclear : ((run divide input (w + k)).statistical.cs == .clear) = false := by
        rw [beq_eq_false_iff_ne, Ne, cs_eq_clear hopens (by omega)]
        omega
      rw [hport, hclear, Bool.and_false]

theorem rightRden_of_selected {k : ℕ} (hk : k < 178)
    (hselected : (input (w + k)).tannisChange = written) :
    (run divide input (w + (k + 1))).statistical.rightRden (!written) =
      decide (1 ≤ k ∧ k < 84 ∨ 87 ≤ k ∧ k < 90) := by
  have hport : (run divide input (w + (k + 1))).statistical.rightRden (!written) =
      ((!written) != (input (w + k)).tannisChange &&
        ((run divide input (w + k)).statistical.cs == .count ||
          (run divide input (w + k)).statistical.cs == .reRead ||
          (run divide input (w + k)).statistical.cs == .reset)) := rfl
  have hreset : ((run divide input (w + k)).statistical.cs == .reset) = false := by
    rw [beq_eq_false_iff_ne, Ne, (at_of_opens hopens (k := k) (by omega)).cs_eq_reset]
    omega
  rw [hport, hselected, asks hopens (by omega), hreset, Bool.or_false]
  cases written <;> rfl

/-- What a port has read, until it clears its bank. -/
theorem latchB_of_le {k : ℕ} (hk : k ≤ 93) (bank : Bool) :
    ((run divide input (w + (k + 1))).gridRam bank).latchB =
      if (run divide input (w + k)).statistical.rightRden bank then
        ((run divide input (w + k)).gridRam bank).cells
          ((run divide input (w + k)).statistical.rightAddr bank)
      else ((run divide input (w + k)).gridRam bank).latchB := by
  rw [← Nat.add_assoc, latchB_eq, rightWren_of_le hopens hk, if_neg Bool.false_ne_true]

/-- The addresses of `RE_READ`. -/
theorem rightAddr_reRead {n : ℕ} (hn : n < 3)
    (hselected : (input (w + (n + 87))).tannisChange = written) :
    (run divide input (w + (n + 88))).statistical.rightAddr (!written) =
      (run divide input (w + (n + 87))).statistical.maxRangePointPos - 1 + BitVec.ofNat 8 n := by
  have hat := at_of_opens hopens (k := n + 87) (by omega)
  have hcs := hat.cs_eq_reRead.mpr (by omega)
  have hcnt := hat.stateCnt_of_reRead hcs
  have hnext := (rightAddr_of_selected divide hselected).1
  have hwidth : (run divide input (w + (n + 87))).statistical.stateCnt.setWidth 8 =
      BitVec.ofNat 8 n := by
    rw [← BitVec.toNat_inj, BitVec.toNat_setWidth, BitVec.toNat_ofNat]
    omega
  rw [GridStatistical.nextAddr, hcs, if_neg (by decide), if_pos rfl, hwidth] at hnext
  exact hnext

/-- The three words that come with `RESULT`. -/
theorem infos_of_words {word : ℕ → BitVec 48}
    (hword : ∀ n < 3, ((run divide input (w + (n + 90))).gridRam
      (!(input (w + (n + 90))).tannisChange)).qB = word n) :
    (run divide input (w + 95)).statistical.beforeInfo = word 0 ∧
      (run divide input (w + 95)).statistical.middleInfo = word 1 ∧
        (run divide input (w + 95)).statistical.afterInfo = word 2 := by
  have hresult {n : ℕ} (hn : n < 3) : (run divide input (w + (n + 90))).statistical.cs = .result ∧
      (run divide input (w + (n + 90))).statistical.stateCnt = BitVec.ofNat 16 n := by
    have hat := at_of_opens hopens (k := n + 90) (by omega)
    have hcs := hat.cs_eq_result.mpr (by omega)
    have hcnt := hat.stateCnt_of_result hcs
    exact ⟨hcs, (GridStatistical.stateCnt_eq_iff _ n (by omega)).mpr (by omega)⟩
  have hclear {k : ℕ} (hk : k = 93 ∨ k = 94) : (run divide input (w + k)).statistical.cs = .clear :=
    (cs_eq_clear hopens (by omega)).mpr (by omega)
  obtain ⟨hcs0, hcnt0⟩ := hresult (n := 0) (by decide)
  obtain ⟨hcs1, hcnt1⟩ := hresult (n := 1) (by decide)
  obtain ⟨hcs2, hcnt2⟩ := hresult (n := 2) (by decide)
  have h0 := info_succ divide input (w + 90)
  have h1 := info_succ divide input (w + 91)
  have h2 := info_succ divide input (w + 92)
  have h3 := info_succ divide input (w + 93)
  have h4 := info_succ divide input (w + 94)
  rw [hword 0 (by decide), GridStatistical.infoStep_before hcs0 hcnt0] at h0
  rw [hword 1 (by decide), GridStatistical.infoStep_middle hcs1 hcnt1] at h1
  rw [hword 2 (by decide), GridStatistical.infoStep_after hcs2 hcnt2] at h2
  rw [GridStatistical.infoStep_of_clear (hclear (.inl rfl))] at h3
  rw [GridStatistical.infoStep_of_clear (hclear (.inr rfl))] at h4
  dsimp only at h0 h1 h2
  exact ⟨h4.1.trans (h3.1.trans (h2.1.trans (h1.1.trans h0.1))),
    h4.2.1.trans (h3.2.1.trans (h2.2.1.trans h1.2.1)),
    h4.2.2.trans (h3.2.2.trans h2.2.2)⟩

section Ports

variable (h : Calm input 92 w written validNumThreshold)

include h

theorem rightRden_succ {k : ℕ} (hk : k < 92) :
    (run divide input (w + (k + 1))).statistical.rightRden (!written) =
      decide (1 ≤ k ∧ k < 84 ∨ 87 ≤ k ∧ k < 90) :=
  rightRden_of_selected hopens (by omega) (h.tannisChange k hk)

theorem cells_keep {k : ℕ} (hk : k ≤ 92) :
    ((run divide input (w + k)).gridRam (!written)).cells =
      contents divide input w written := by
  induction k with
  | zero => rfl
  | succ k ih =>
      have hleft := h.left k (by omega)
      have hright : ((run divide input (w + k)).rightPort (!written)).wren = false :=
        rightWren_of_le hopens (by omega) _
      rw [← ih (by omega), ← Nat.add_assoc, gridRam_succ]
      simp [GridRam.step, GridRam.write, hleft, hright]

theorem latchB_succ {k : ℕ} (hk : k ≤ 92) :
    ((run divide input (w + (k + 1))).gridRam (!written)).latchB =
      if (run divide input (w + k)).statistical.rightRden (!written) then
        contents divide input w written
          ((run divide input (w + k)).statistical.rightAddr (!written))
      else ((run divide input (w + k)).gridRam (!written)).latchB := by
  rw [← cells_keep hopens h (k := k) (by omega)]
  exact latchB_of_le hopens (by omega) (!written)

theorem rightAddr_scan {n : ℕ} (hn : n ≤ 82) :
    (run divide input (w + (n + 2))).statistical.rightAddr (!written) = BitVec.ofNat 8 n := by
  have hat := at_of_opens hopens (k := n + 1) (by omega)
  have hcs := hat.cs_eq_count.mpr (by omega)
  have hcnt := hat.stateCnt_of_count hcs
  have hnext := (h.rightAddr_succ divide (k := n + 1) (by omega)).1
  rw [GridStatistical.nextAddr, if_pos hcs] at hnext
  rw [show n + 2 = n + 1 + 1 from rfl, hnext, ← BitVec.toNat_inj, BitVec.toNat_setWidth,
    BitVec.toNat_ofNat]
  omega

theorem rightAddr_wait {n : ℕ} (hn : n ≤ 3) :
    (run divide input (w + (n + 84))).statistical.rightAddr (!written) = 82 := by
  induction n with
  | zero => exact rightAddr_scan hopens h le_rfl
  | succ n ih =>
      have hat := at_of_opens hopens (k := n + 84) (by omega)
      have hcs := hat.cs_eq_wait.mpr (by omega)
      have hnext := (h.rightAddr_succ divide (k := n + 84) (by omega)).1
      rw [GridStatistical.nextAddr, hcs, if_neg (by decide), if_neg (by decide), if_neg (by decide),
        if_neg (by decide), ih (by omega)] at hnext
      exact hnext

theorem addr_eq_82 {n : ℕ} (hn : n ≤ 81) :
    ((run divide input (w + (n + 4))).statistical.rightAddr false = 82 ∨
      (run divide input (w + (n + 4))).statistical.rightAddr true = 82) ↔ 80 ≤ n := by
  rw [show n + 4 = n + 3 + 1 from rfl, h.addr_eq_82_iff divide (by omega)]
  rcases Nat.lt_or_eq_of_le hn with hlt | rfl
  · have haddr := rightAddr_scan hopens h (n := n + 2) (by omega)
    rw [show n + 3 + 1 = n + 2 + 2 from rfl, haddr, ← BitVec.toNat_inj, BitVec.toNat_ofNat,
      Nat.mod_eq_of_lt (by omega)]
    change n + 2 = 82 ↔ 80 ≤ n
    omega
  · exact iff_of_true (rightAddr_wait hopens h (n := 1) (by decide)) (by decide)

/-! ### The words -/

theorem word_held : ((run divide input (w + 3)).gridRam (!written)).qB =
    held divide input w written := by
  have hquiet := rightRden_succ hopens h (k := 0) (by decide)
  have hlatch := latchB_succ hopens h (k := 1) (by decide)
  rw [hquiet] at hlatch
  exact hlatch

/-- The word behind cell `n` comes four clocks after its number. -/
theorem latchB_scan {n : ℕ} (hn : n ≤ 82) :
    ((run divide input (w + (n + 3))).gridRam (!written)).latchB =
      contents divide input w written (BitVec.ofNat 8 n) := by
  have hasked := rightRden_succ hopens h (k := n + 1) (by omega)
  have hlatch := latchB_succ hopens h (k := n + 2) (by omega)
  rw [hasked, if_pos (by simp; omega), rightAddr_scan hopens h hn] at hlatch
  exact hlatch

theorem word_scan {n : ℕ} (hn : n ≤ 82) :
    ((run divide input (w + (n + 4))).gridRam (!written)).qB =
      contents divide input w written (BitVec.ofNat 8 n) :=
  latchB_scan hopens h hn

/-- The last word stands until the cells are read again. -/
theorem latchB_wait {n : ℕ} (hn : n ≤ 3) :
    ((run divide input (w + (n + 85))).gridRam (!written)).latchB =
      contents divide input w written 82 := by
  induction n with
  | zero => exact latchB_scan hopens h le_rfl
  | succ n ih =>
      have hquiet := rightRden_succ hopens h (k := n + 84) (by omega)
      have hlatch := latchB_succ hopens h (k := n + 85) (by omega)
      rw [hquiet, if_neg (by simp; omega), ih (by omega)] at hlatch
      exact hlatch

/-! ### The scan -/

theorem scan_word {k : ℕ} (hk : 3 ≤ k ∧ k < 86 ∨ 89 ≤ k ∧ k < 92) :
    (GridStatistical.Offered (run divide input (w + k)).statistical validNumThreshold
        ((run divide input (w + k)).gridRam (!written)).qB →
      (run divide input (w + (k + 1))).statistical.curRangePointNumber =
          number ((run divide input (w + k)).gridRam (!written)).qB ∧
        (run divide input (w + (k + 1))).statistical.maxRangePointPos =
          (run divide input (w + k)).statistical.ramDataCnt) ∧
      (¬ GridStatistical.Offered (run divide input (w + k)).statistical validNumThreshold
          ((run divide input (w + k)).gridRam (!written)).qB →
        (run divide input (w + (k + 1))).statistical.curRangePointNumber =
            (run divide input (w + k)).statistical.curRangePointNumber ∧
          (run divide input (w + (k + 1))).statistical.maxRangePointPos =
            (run divide input (w + k)).statistical.maxRangePointPos) := by
  have hvalid := valid1 hopens (k := k) (by omega)
  rw [decide_eq_true hk] at hvalid
  have hscan := scan_succ divide input (w + k)
  rw [h.tannisChange k (by omega), h.validNumThreshold k (by omega)] at hscan
  obtain ⟨htaken, hleft⟩ := GridStatistical.scanStep_of_valid (not_forget hopens (k := k) (by omega))
    hvalid validNumThreshold ((run divide input (w + k)).gridRam (!written)).qB
  refine ⟨fun hoffered => ?_, fun hnot => ?_⟩
  · rw [htaken hoffered] at hscan
    exact hscan
  · rw [hleft hnot] at hscan
    exact hscan

/-- The word that the port still held is offered for place 0. -/
theorem shows_held : (run divide input (w + 4)).statistical.Shows
    ((number (held divide input w written)).toNat, 0) := by
  have hzero : (run divide input (w + 3)).statistical.curRangePointNumber = 0 ∧
      (run divide input (w + 3)).statistical.maxRangePointPos = 0 := by
    obtain ⟨hnumber1, hpos1⟩ := scan_quiet hopens (k := 0) (by decide) (by decide)
    obtain ⟨hnumber2, hpos2⟩ := scan_quiet hopens (k := 1) (by decide) (by decide)
    obtain ⟨hnumber3, hpos3⟩ := scan_quiet hopens (k := 2) (by decide) (by decide)
    have hrested := (rested hopens).1
    exact ⟨hnumber3.trans (hnumber2.trans (hnumber1.trans hrested.number)),
      hpos3.trans (hpos2.trans (hpos1.trans hrested.pos))⟩
  have hcnt : (run divide input (w + 3)).statistical.ramDataCnt = 0 := by
    have hnext := ramDataCnt_succ divide input (w + 2)
    rw [valid2 hopens (k := 2) (by decide)] at hnext
    exact hnext
  have haddr : ¬ ((run divide input (w + 3)).statistical.rightAddr false = 82 ∨
      (run divide input (w + 3)).statistical.rightAddr true = 82) := by
    have hown := rightAddr_scan hopens h (n := 1) (by decide)
    rw [h.addr_eq_82_iff divide (k := 2) (by decide), hown]
    decide
  obtain ⟨htaken, hleft⟩ := scan_word hopens h (k := 3) (by decide)
  rw [word_held hopens h] at htaken hleft
  by_cases hoffered : GridStatistical.Offered (run divide input (w + 3)).statistical
      validNumThreshold (held divide input w written)
  · obtain ⟨hnumber, hpos⟩ := htaken hoffered
    exact ⟨congrArg BitVec.toNat hnumber, hpos.trans hcnt⟩
  · obtain ⟨hnumber, hpos⟩ := hleft hoffered
    have hle : ¬ 0 < (number (held divide input w written)).toNat :=
      fun hlt => hoffered ⟨by rw [hzero.1]; exact hlt, fun h82 => absurd h82 haddr⟩
    refine ⟨?_, hpos.trans hzero.2⟩
    rw [hnumber, hzero.1, Nat.eq_zero_of_not_pos hle]
    rfl

theorem shows_scan {n : ℕ} (hn : n ≤ 82) : (run divide input (w + (n + 4))).statistical.Shows
    (fullest validNumThreshold (held divide input w written)
      (contents divide input w written) n) := by
  induction n with
  | zero => exact shows_held hopens h
  | succ n ih =>
      obtain ⟨hnumber, hpos⟩ := ih (by omega)
      obtain ⟨htaken, hleft⟩ := scan_word hopens h (k := n + 4) (by omega)
      rw [word_scan hopens h (by omega), ramDataCnt_scan hopens (by omega)] at htaken
      rw [word_scan hopens h (by omega)] at hleft
      have hoffered : GridStatistical.Offered (run divide input (w + (n + 4))).statistical
          validNumThreshold (contents divide input w written (BitVec.ofNat 8 n)) ↔
            (fullest validNumThreshold (held divide input w written)
                (contents divide input w written) n).1 <
                count (contents divide input w written) n ∧
              (n < 80 || (fullest validNumThreshold
                  (held divide input w written)
                  (contents divide input w written) n).1 <
                validNumThreshold.toNat) = true := by
        unfold GridStatistical.Offered
        rw [hnumber, addr_eq_82 hopens h (by omega), Bool.or_eq_true, decide_eq_true_eq,
          decide_eq_true_eq, count]
        refine and_congr_right fun _ => ?_
        omega
      by_cases htakes : GridStatistical.Offered (run divide input (w + (n + 4))).statistical
          validNumThreshold (contents divide input w written (BitVec.ofNat 8 n))
      · obtain ⟨hnumber', hpos'⟩ := htaken htakes
        rw [fullest_succ, if_pos (hoffered.mp htakes)]
        exact ⟨congrArg BitVec.toNat hnumber', hpos'⟩
      · obtain ⟨hnumber', hpos'⟩ := hleft htakes
        rw [fullest_succ, if_neg (mt hoffered.mpr htakes)]
        exact ⟨(congrArg BitVec.toNat hnumber').trans hnumber, hpos'.trans hpos⟩

/-! ### The cells again -/

/-- The fullest cell stands while the cells are asked for again. -/
theorem shows_wait {n : ℕ} (hn : n ≤ 3) : (run divide input (w + (n + 86))).statistical.Shows
    (best divide input w written validNumThreshold) := by
  induction n with
  | zero => exact shows_scan hopens h le_rfl
  | succ n ih =>
      obtain ⟨hnumber, hpos⟩ := ih (by omega)
      obtain ⟨hnumber', hpos'⟩ := scan_quiet hopens (k := n + 86) (by omega) (by omega)
      exact ⟨(congrArg BitVec.toNat hnumber').trans hnumber, hpos'.trans hpos⟩

theorem rightAddr_again {n : ℕ} (hn : n < 3) :
    (run divide input (w + (n + 88))).statistical.rightAddr (!written) =
      BitVec.ofNat 8 (best divide input w written validNumThreshold).2 - 1 + BitVec.ofNat 8 n := by
  have hpos := (shows_wait hopens h (n := n + 1) (by omega)).2
  rw [rightAddr_reRead hopens hn (h.tannisChange _ (by omega)), hpos]

theorem latchB_again {n : ℕ} (hn : n < 3) :
    ((run divide input (w + (n + 89))).gridRam (!written)).latchB =
      contents divide input w written
        (BitVec.ofNat 8 (best divide input w written validNumThreshold).2 - 1 + BitVec.ofNat 8 n) := by
  have hasked := rightRden_succ hopens h (k := n + 87) (by omega)
  have hlatch := latchB_succ hopens h (k := n + 88) (by omega)
  rw [hasked, if_pos (by simp; omega), rightAddr_again hopens h hn] at hlatch
  exact hlatch

/-- The words that come with the cells. -/
theorem word_again {k : ℕ} (hk : 89 ≤ k ∧ k < 92) :
    (number ((run divide input (w + k)).gridRam (!written)).qB).toNat =
      count (contents divide input w written)
        (if k = 89 then 82
        else if k = 91 then (best divide input w written validNumThreshold).2
        else if (best divide input w written validNumThreshold).2 = 0 then 255
        else (best divide input w written validNumThreshold).2 - 1) := by
  have hlt : (best divide input w written validNumThreshold).2 < 82 := fullest_place_lt (by decide)
  obtain rfl | rfl | rfl : k = 89 ∨ k = 90 ∨ k = 91 := by omega
  · exact congrArg (fun data => (number data).toNat) (latchB_wait hopens h (n := 3) le_rfl)
  · have hword := latchB_again hopens h (n := 0) (by decide)
    refine (congrArg (fun data => (number data).toNat) hword).trans ?_
    rw [if_neg (by decide), if_neg (by decide), count]
    congr 3
    generalize (best divide input w written validNumThreshold).2 = p at hlt ⊢
    split
    · rename_i hzero
      rw [hzero]
      rfl
    · have hone : (1 : BitVec 8).toNat = 1 := rfl
      rw [← BitVec.toNat_inj]
      simp only [BitVec.toNat_add, BitVec.toNat_sub, BitVec.toNat_ofNat, hone]
      omega
  · have hword := latchB_again hopens h (n := 1) (by decide)
    refine (congrArg (fun data => (number data).toNat) hword).trans ?_
    rw [if_neg (by decide), if_pos rfl, count]
    congr 3
    exact BitVec.sub_add_cancel _ _

/-- The word that is read at the place of the fullest cell, and the one before, are not fuller. -/
theorem word_again_le {k : ℕ} (hk : 90 ≤ k ∧ k < 92)
    (h255 : (best divide input w written validNumThreshold).2 = 0 →
      count (contents divide input w written) 255 ≤
        (best divide input w written validNumThreshold).1) :
    (number ((run divide input (w + k)).gridRam (!written)).qB).toNat ≤
      (best divide input w written validNumThreshold).1 := by
  obtain ⟨hown, hbefore⟩ := @count_place_le validNumThreshold (held divide input w written)
    (contents divide input w written)
  rw [word_again hopens h (by omega), if_neg (by omega)]
  split
  · exact hown
  · split
    · rename_i hzero
      exact h255 hzero
    · rename_i hpos
      exact hbefore hpos

/-- The place stands while the cells are read again, if cell 82 is not fuller. -/
theorem shows_again
    (h82 : count (contents divide input w written) 82 ≤
      (best divide input w written validNumThreshold).1)
    (h255 : (best divide input w written validNumThreshold).2 = 0 →
      count (contents divide input w written) 255 ≤
        (best divide input w written validNumThreshold).1)
    {n : ℕ} (hn : n ≤ 26) : (run divide input (w + (n + 86))).statistical.Shows
      (best divide input w written validNumThreshold) := by
  induction n with
  | zero => exact shows_wait hopens h (by decide)
  | succ n ih =>
      obtain ⟨hnumber, hpos⟩ := ih (by omega)
      by_cases hword : 89 ≤ n + 86 ∧ n + 86 < 92
      · have hle : (number ((run divide input (w + (n + 86))).gridRam (!written)).qB).toNat ≤
            (run divide input (w + (n + 86))).statistical.curRangePointNumber.toNat := by
          rw [hnumber]
          rcases Nat.eq_or_lt_of_le hword.1 with hfirst | hlater
          · rw [word_again hopens h hword, if_pos hfirst.symm]
            exact h82
          · exact word_again_le hopens h ⟨hlater, hword.2⟩ h255
        obtain ⟨-, hleft⟩ := scan_word hopens h (.inr hword)
        obtain ⟨hnumber', hpos'⟩ := hleft (GridStatistical.not_offered_of_le hle)
        exact ⟨(congrArg BitVec.toNat hnumber').trans hnumber, hpos'.trans hpos⟩
      · obtain ⟨hnumber', hpos'⟩ := scan_quiet hopens (k := n + 86) (by omega) (by omega)
        exact ⟨(congrArg BitVec.toNat hnumber').trans hnumber, hpos'.trans hpos⟩

/-- Else it is, or goes to, zero. -/
theorem pos_again
    (hlost : (best divide input w written validNumThreshold).2 = 0 ∨
      (best divide input w written validNumThreshold).1 <
        count (contents divide input w written) 82)
    {n : ℕ} (hlo : 4 ≤ n) (hn : n ≤ 26) :
    (run divide input (w + (n + 86))).statistical.maxRangePointPos = 0 ∧
      (best divide input w written validNumThreshold).1 ≤
        (run divide input (w + (n + 86))).statistical.curRangePointNumber.toNat := by
  have hzero {k : ℕ} (hk : k = 88 ∨ k = 89) :
      (run divide input (w + (k + 1))).statistical.ramDataCnt = 0 := by
    have hcnt := ramDataCnt_succ divide input (w + k)
    rw [valid2 hopens (k := k) (by omega), if_neg (by simp; omega)] at hcnt
    exact hcnt
  induction n, hlo using Nat.le_induction with
  | base =>
      obtain ⟨hnumber, hpos⟩ := shows_wait hopens h (n := 3) le_rfl
      obtain ⟨htaken, hleft⟩ := scan_word hopens h (k := 89) (by decide)
      have hword := word_again hopens h (k := 89) (by decide)
      rw [if_pos rfl] at hword
      by_cases hoffered : GridStatistical.Offered (run divide input (w + 89)).statistical
          validNumThreshold ((run divide input (w + 89)).gridRam (!written)).qB
      · obtain ⟨hnumber', hpos'⟩ := htaken hoffered
        refine ⟨hpos'.trans (hzero (.inl rfl)), ?_⟩
        have hmore := hoffered.1
        rw [← hnumber', hnumber] at hmore
        exact hmore.le
      · obtain ⟨hnumber', hpos'⟩ := hleft hoffered
        refine ⟨hpos'.trans ?_, (congrArg BitVec.toNat hnumber').trans hnumber |>.ge⟩
        have hempty : (best divide input w written validNumThreshold).2 = 0 := by
          refine hlost.resolve_right fun hmore => hoffered ⟨?_, fun h82 => ?_⟩
          · rw [hnumber, hword]
            exact hmore
          · rw [h.addr_eq_82_iff divide (k := 88) (by decide),
              rightAddr_again hopens h (n := 1) (by decide)] at h82
            have hlt : (best divide input w written validNumThreshold).2 < 82 :=
              fullest_place_lt (by decide)
            have hplace := congrArg BitVec.toNat ((BitVec.sub_add_cancel _ _).symm.trans h82)
            rw [BitVec.toNat_ofNat, Nat.mod_eq_of_lt (by omega)] at hplace
            exact absurd hplace hlt.ne
        exact hpos.trans (congrArg (BitVec.ofNat 8) hempty)
  | succ n hlo ih =>
      obtain ⟨hpos, hnumber⟩ := ih (by omega)
      rcases Nat.lt_or_ge n 6 with hword | hquiet
      · obtain ⟨htaken, hleft⟩ := scan_word hopens h (k := n + 86) (by omega)
        by_cases hoffered : GridStatistical.Offered (run divide input (w + (n + 86))).statistical
            validNumThreshold ((run divide input (w + (n + 86))).gridRam (!written)).qB
        · have hmore := hoffered.1
          obtain rfl : n = 4 := by
            by_contra hne
            obtain rfl : n = 5 := by omega
            have hplace := (@count_place_le validNumThreshold (held divide input w written)
              (contents divide input w written)).1
            rw [word_again hopens h (by decide), if_neg (by decide), if_pos rfl] at hmore
            exact absurd (hplace.trans hnumber) (Nat.not_le.mpr hmore)
          obtain ⟨hnumber', hpos'⟩ := htaken hoffered
          refine ⟨hpos'.trans (hzero (.inr rfl)), hnumber.trans ?_⟩
          exact hmore.le.trans_eq (congrArg BitVec.toNat hnumber').symm
        · obtain ⟨hnumber', hpos'⟩ := hleft hoffered
          exact ⟨hpos'.trans hpos, hnumber.trans_eq (congrArg BitVec.toNat hnumber').symm⟩
      · obtain ⟨hnumber', hpos'⟩ := scan_quiet hopens (k := n + 86) (by omega) (by omega)
        exact ⟨hpos'.trans hpos, hnumber.trans_eq (congrArg BitVec.toNat hnumber').symm⟩

/-- The window is reported exactly if one of its cells is. -/
theorem counts_iff {n : ℕ} (hlo : 6 ≤ n) (hn : n ≤ 26) :
    (run divide input (w + (n + 86))).statistical.Counts ↔
      Reported validNumThreshold (held divide input w written) (contents divide input w written) := by
  have hlt : (best divide input w written validNumThreshold).2 < 82 := fullest_place_lt (by decide)
  by_cases hlost : (best divide input w written validNumThreshold).2 = 0 ∨
      (best divide input w written validNumThreshold).1 <
        count (contents divide input w written) 82
  · obtain ⟨hpos, -⟩ := pos_again hopens h hlost (by omega) hn
    refine iff_of_false (fun hcounts => hcounts.1 hpos) fun hreported => ?_
    rcases hlost with hzero | hmore
    · exact hreported.1 hzero
    · exact absurd hreported.2.2 (Nat.not_le.mpr hmore)
  · obtain ⟨hne, h82⟩ := not_or.mp hlost
    have h82' := Nat.not_lt.mp h82
    obtain ⟨hnumber, hpos⟩ := shows_again hopens h h82' (fun hzero => absurd hzero hne) hn
    have hpos' : (run divide input (w + (n + 86))).statistical.maxRangePointPos ≠ 0 ↔
        (best divide input w written validNumThreshold).2 ≠ 0 := by
      rw [hpos, Ne, ← BitVec.toNat_inj, BitVec.toNat_ofNat, Nat.mod_eq_of_lt (by omega)]
      rfl
    unfold GridStatistical.State.Counts Reported
    rw [hpos', hnumber]
    exact and_congr_right fun _ => (and_iff_left h82').symm

end Ports

/-! ### The sums -/

section Sums

variable (h : Calm input 93 w written validNumThreshold)

include h

/-- The three words come with `RESULT`. -/
theorem infos : (run divide input (w + 95)).statistical.beforeInfo =
      contents divide input w written
        (BitVec.ofNat 8 (best divide input w written validNumThreshold).2 - 1) ∧
    (run divide input (w + 95)).statistical.middleInfo =
      contents divide input w written
        (BitVec.ofNat 8 (best divide input w written validNumThreshold).2) ∧
    (run divide input (w + 95)).statistical.afterInfo =
      contents divide input w written
        (BitVec.ofNat 8 (best divide input w written validNumThreshold).2 + 1) := by
  have hword : ∀ n < 3, ((run divide input (w + (n + 90))).gridRam
      (!(input (w + (n + 90))).tannisChange)).qB =
        (fun n => contents divide input w written
          (BitVec.ofNat 8 (best divide input w written validNumThreshold).2 - 1 + BitVec.ofNat 8 n)) n := by
    intro n hn
    rw [h.tannisChange _ (by omega)]
    exact latchB_again hopens (h.mono (by decide)) hn
  obtain ⟨hbefore, hmiddle, hafter⟩ := infos_of_words hopens hword
  have hone : (BitVec.ofNat 8 1 : BitVec 8) = 1 := rfl
  have htwo : (BitVec.ofNat 8 2 : BitVec 8) = 1 + 1 := rfl
  rw [BitVec.add_zero] at hbefore
  rw [hone, BitVec.sub_add_cancel] at hmiddle
  rw [htwo, ← BitVec.add_assoc, BitVec.sub_add_cancel] at hafter
  exact ⟨hbefore, hmiddle, hafter⟩

theorem sums_of_window {k : ℕ} (hlo : 96 ≤ k) (hhi : k ≤ 179) :
    (run divide input (w + k)).statistical.sums =
      if Reported validNumThreshold (held divide input w written) (contents divide input w written)
      then sums validNumThreshold (held divide input w written) (contents divide input w written)
      else (run divide input w).statistical.sums := by
  have hcounts := counts_iff hopens (h.mono (by decide)) (n := 9) (by decide) (by decide)
  obtain ⟨hbefore, hmiddle, hafter⟩ := infos hopens h
  rw [sums_after hopens hlo hhi]
  split
  · rename_i hreported
    rw [GridStatistical.mergeStep_sums (merges hopens) (hcounts.mpr hreported), hbefore, hmiddle, hafter]
    rfl
  · rename_i hnot
    rw [GridStatistical.mergeStep_of_not_counts (mt hcounts.mp hnot), sums_before hopens (by decide)]

end Sums

end Window

end Readout

end SingleScan
