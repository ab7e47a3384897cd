import SingleScan.CalcDistance
import SingleScan.Lib.Since
import SingleScan.Lib.Trace
import Mathlib.Data.Bool.Basic

/-!
# The windows of the histogram

A window ends when `tannis_change` is toggled. From there `grid_statistical` is busy for 180 clocks with
the bank that is no longer written. The shots of a window are counted, so that a toggle by the count
comes late enough; a toggle by the edge of a tooth, or by the end of the rotation, may not.
-/

namespace SingleScan

open Clocked

namespace GridDivision

variable {s : Control} {i : Input}

/-- `tannis_change` changes in `IDLE`, with the last shot of a window, or with the edge of a tooth. -/
theorem Control.step_tannisChange (h : (s.step i).tannisChange ≠ s.tannisChange) :
    s.cs = .idle ∧ s.tannisChange = true ∨
      s.cs ≠ .idle ∧
        (s.sendEnCnt = i.degreePara ∨
          s.sendEnCnt ≠ i.degreePara ∧ i.wheelFall = true ∧ s.sendEnCnt ≠ 0) := by
  unfold Control.step at h
  dsimp only at h
  by_cases hidle : s.cs = .idle
  · rw [if_pos hidle] at h
    exact .inl ⟨hidle, Bool.of_not_eq_false (Ne.symm h)⟩
  · rw [if_neg hidle] at h
    refine .inr ⟨hidle, ?_⟩
    by_cases hcount : s.sendEnCnt = i.degreePara
    · exact .inl hcount
    · rw [if_neg hcount] at h
      refine .inr ⟨hcount, ?_⟩
      split at h
      · next hwheel =>
          refine ⟨hwheel, fun hzero => h ?_⟩
          rw [if_pos hzero]
      · exact absurd rfl h

theorem Control.step_sendEnCnt_of_toggled (h : (s.step i).tannisChange ≠ s.tannisChange) :
    (s.step i).sendEnCnt = 0 := by
  unfold Control.step
  dsimp only
  rcases s.step_tannisChange h with ⟨hidle, -⟩ | ⟨-, hcount | ⟨-, hwheel, -⟩⟩
  · simp [hidle]
  · simp [hcount]
  · simp [hwheel]

/-- `IDLE` is entered at the end of the rotation only. -/
theorem Control.cs_of_step_idle (h : (s.step i).cs = .idle) (hstep : i.stepCnt.toNat < 43) :
    s.cs = .idle ∧ (s.step i).tannisChange = false := by
  have hidle : s.cs = .idle := by
    change s.ns i = .idle at h
    have hend : ¬ 43 ≤ i.stepCnt.toNat := by omega
    unfold Control.ns at h
    cases hcs : s.cs <;> rw [hcs] at h <;> dsimp only at h
    case write => cases h
    all_goals split_ifs at h
  refine ⟨hidle, ?_⟩
  unfold Control.step
  dsimp only
  rw [if_pos hidle]

theorem Control.step_sendEnCnt (s : Control) (i : Input) :
    (s.step i).sendEnCnt = 0 ∨ (s.step i).sendEnCnt = s.sendEnCnt ∨
      (s.step i).sendEnCnt = s.sendEnCnt + 1 ∧ i.sendEn = true := by
  unfold Control.step
  dsimp only
  split_ifs with h1 h2 h3 h4 h5 <;> simp [*]

end GridDivision

namespace GridStatistical

/-- The state, and the clocks since it was entered, `j` clocks after a toggle. -/
def Phase.At : Phase → ℕ → ℕ → Prop
  | .idle, _, _ => False
  | .start1, _, j => j < 2 ∨ 180 ≤ j
  | .count, n, j => n + 2 = j ∧ j < 85
  | .wait, n, j => n + 85 = j ∧ j < 88
  | .reRead, n, j => n + 88 = j ∧ j < 91
  | .result, n, j => n + 91 = j ∧ j < 94
  | .clear, n, j => n + 94 = j ∧ j < 179
  | .reset, _, j => j = 179

def Control.At (s : Control) (j : ℕ) : Prop := s.cs.At s.stateCnt.toNat j

section At

variable {s : Control} {j : ℕ} {zeroFlag : Bool}

theorem stateCnt_eq_iff (s : Control) (k : ℕ) (hk : k < 2 ^ 16) :
    s.stateCnt = BitVec.ofNat 16 k ↔ s.stateCnt.toNat = k := by
  rw [← BitVec.toNat_inj, BitVec.toNat_ofNat, Nat.mod_eq_of_lt hk]

theorem Control.ns_eq_idle (h : s.ns zeroFlag = .idle) : s.cs = .idle ∧ zeroFlag = false := by
  unfold Control.ns at h
  cases hcs : s.cs <;> rw [hcs] at h <;> dsimp only at h <;> (try split at h) <;> simp_all

theorem Control.At.cs_of_le (h : s.At j) (hj : 180 ≤ j) : s.cs = .start1 := by
  unfold Control.At at h
  cases hcs : s.cs <;> rw [hcs] at h <;> simp only [Phase.At] at h <;> first | rfl | omega

/-- A toggle is seen in `START1`, one clock after it. -/
theorem Control.at_zero (hcs : s.cs = .start1) (hsame : ¬ s.changed = true)
    (zeroFlag tannisChange : Bool) : (s.step zeroFlag tannisChange).At 0 := by
  unfold Control.At Control.step Control.ns
  simp [hcs, hsame, Phase.At]

/-- A state is entered with count zero, and stays with the next count. -/
theorem Control.step_at (zeroFlag tannisChange : Bool) (hsmall : s.stateCnt.toNat < 100) :
    (s.step zeroFlag tannisChange).At j ↔
      (s.ns zeroFlag).At (if s.cs ≠ s.ns zeroFlag then 0 else s.stateCnt.toNat + 1) j := by
  have hone : (1 : BitVec 16).toNat = 1 := rfl
  have hnext : (s.step zeroFlag tannisChange).stateCnt.toNat =
      if s.cs ≠ s.ns zeroFlag then 0 else s.stateCnt.toNat + 1 := by
    unfold Control.step
    dsimp only
    split
    · rfl
    · rw [BitVec.toNat_add, hone]
      omega
  rw [← hnext]
  rfl

/-- The window goes on by one clock. `START1` is left with the toggle. -/
theorem Control.At.step (h : s.At j) (hchanged : s.cs = .start1 → (s.changed = true ↔ j = 1))
    (zeroFlag tannisChange : Bool) : (s.step zeroFlag tannisChange).At (j + 1) := by
  have h2 : s.stateCnt = 2#16 ↔ s.stateCnt.toNat = 2 := stateCnt_eq_iff s 2 (by decide)
  have h82 : s.stateCnt = 82#16 ↔ s.stateCnt.toNat = 82 := stateCnt_eq_iff s 82 (by decide)
  have h84 : s.stateCnt = 84#16 ↔ s.stateCnt.toNat = 84 := stateCnt_eq_iff s 84 (by decide)
  unfold Control.At at h
  cases hcs : s.cs <;> rw [hcs] at h <;> simp only [Phase.At] at h
  case start1 =>
    unfold Control.At Control.step Control.ns
    rw [hcs]
    by_cases hj : j = 1
    · simp [(hchanged hcs).mpr hj, hj, Phase.At]
    · simp [mt (hchanged hcs).mp hj, Phase.At]
      omega
  case count =>
    rw [s.step_at _ _ (by omega)]
    by_cases hlast : s.stateCnt.toNat = 82 <;> simp [Control.ns, hcs, h82, hlast, Phase.At] <;> omega
  case wait =>
    rw [s.step_at _ _ (by omega)]
    by_cases hlast : s.stateCnt.toNat = 2 <;> simp [Control.ns, hcs, h2, hlast, Phase.At] <;> omega
  case reRead =>
    rw [s.step_at _ _ (by omega)]
    by_cases hlast : s.stateCnt.toNat = 2 <;> simp [Control.ns, hcs, h2, hlast, Phase.At] <;> omega
  case result =>
    rw [s.step_at _ _ (by omega)]
    by_cases hlast : s.stateCnt.toNat = 2 <;> simp [Control.ns, hcs, h2, hlast, Phase.At] <;> omega
  case clear =>
    rw [s.step_at _ _ (by omega)]
    by_cases hlast : s.stateCnt.toNat = 84 <;> simp [Control.ns, hcs, h84, hlast, Phase.At] <;> omega
  case reset =>
    unfold Control.At Control.step Control.ns
    rw [hcs]
    simp [Phase.At]
    omega

section Ranges

variable (h : s.At j)

include h

theorem Control.At.cs_eq_count : s.cs = .count ↔ 2 ≤ j ∧ j < 85 := by
  unfold Control.At at h
  cases hcs : s.cs <;> rw [hcs] at h <;> simp only [Phase.At] at h <;> simp <;> omega

theorem Control.At.cs_eq_wait : s.cs = .wait ↔ 85 ≤ j ∧ j < 88 := by
  unfold Control.At at h
  cases hcs : s.cs <;> rw [hcs] at h <;> simp only [Phase.At] at h <;> simp <;> omega

theorem Control.At.cs_eq_reRead : s.cs = .reRead ↔ 88 ≤ j ∧ j < 91 := by
  unfold Control.At at h
  cases hcs : s.cs <;> rw [hcs] at h <;> simp only [Phase.At] at h <;> simp <;> omega

theorem Control.At.cs_eq_clear : s.cs = .clear ↔ 94 ≤ j ∧ j < 179 := by
  unfold Control.At at h
  cases hcs : s.cs <;> rw [hcs] at h <;> simp only [Phase.At] at h <;> simp <;> omega

theorem Control.At.cs_eq_reset : s.cs = .reset ↔ j = 179 := by
  unfold Control.At at h
  cases hcs : s.cs <;> rw [hcs] at h <;> simp only [Phase.At] at h <;> simp <;> omega

theorem Control.At.stateCnt_of_count (hcs : s.cs = .count) : s.stateCnt.toNat + 2 = j := by
  unfold Control.At at h
  rw [hcs] at h
  exact h.1

theorem Control.At.stateCnt_of_reRead (hcs : s.cs = .reRead) : s.stateCnt.toNat + 88 = j := by
  unfold Control.At at h
  rw [hcs] at h
  exact h.1

theorem Control.At.cs_eq_result : s.cs = .result ↔ 91 ≤ j ∧ j < 94 := by
  unfold Control.At at h
  cases hcs : s.cs <;> rw [hcs] at h <;> simp only [Phase.At] at h <;> simp <;> omega

theorem Control.At.stateCnt_of_result (hcs : s.cs = .result) : s.stateCnt.toNat + 91 = j := by
  unfold Control.At at h
  rw [hcs] at h
  exact h.1

theorem Control.At.stateCnt_of_clear (hcs : s.cs = .clear) : s.stateCnt.toNat + 94 = j := by
  unfold Control.At at h
  rw [hcs] at h
  exact h.1

end Ranges

end At

end GridStatistical

namespace CalcDistance

variable (divide : BitVec 24 → BitVec 9 → BitVec 24) (input : ℕ → Input)

/-- The state before clock `c`, from power-up. -/
def run : ℕ → State := trace (step divide) State.powerUp input

/-- The bank that `grid_division` writes. -/
def written (c : ℕ) : Bool := (run divide input c).division.tannisChange

/-- Clock `T` is the first one after a toggle. -/
def Toggle (T : ℕ) : Prop := Toggled (written divide input) T

/-- The shots and the edges of the teeth. -/
structure Schedule : Prop where
  sendEn : ∀ c d, c < d → (input c).sendEn = true → (input d).sendEn = true → c + 123 ≤ d
  degreePara : ∀ c, 8 ≤ (input c).degreePara.toNat
  wheelFall : ∀ c d, c < d → (input c).wheelFall = true → (input d).wheelFall = true →
    c + 20000 ≤ d

/-- With this clock `tannis_change` is toggled, and not because of the last shot of a window. -/
def ByEdge (s : GridDivision.Control) (i : GridDivision.Input) : Prop :=
  s.cs = .idle ∧ s.tannisChange = true ∨
    s.cs ≠ .idle ∧ s.sendEnCnt ≠ i.degreePara ∧ i.wheelFall = true ∧ s.sendEnCnt ≠ 0

/-- An edge of a tooth and the end of the rotation leave the window before them its 180 clocks. -/
def Quiet : Prop :=
  ∀ T c, Toggle divide input T → T ≤ c →
    ByEdge (run divide input c).division.toControl (input c).toDivision → T + 180 ≤ c

/-- **The double buffer.** After a toggle at `T` the bank that is no longer written is scanned, read
again, cleared and read at cell 0, by clock `T + 180`, and before the next toggle. -/
structure Disciplined : Prop where
  finished : ∀ T T', Toggle divide input T → Toggle divide input T' → T < T' → T + 181 ≤ T'
  targetValid : ∀ c, (run divide input c).statistical.targetValid = true ↔
    ∃ T, Toggle divide input T ∧ c = T + 113
  rden : ∀ c bank, (run divide input c).statistical.rightRden bank = true ↔
    ∃ T, Toggle divide input T ∧ bank = !written divide input T ∧
      (T + 3 ≤ c ∧ c < T + 86 ∨ T + 89 ≤ c ∧ c < T + 92 ∨ c = T + 180)
  wren : ∀ c bank, (run divide input c).statistical.rightWren bank = true ↔
    ∃ T, Toggle divide input T ∧ bank = !written divide input T ∧ T + 95 ≤ c ∧ c < T + 180
  scanned : ∀ T, Toggle divide input T → ∀ n < 83,
    (run divide input (T + 3 + n)).statistical.rightAddr (!written divide input T) =
      BitVec.ofNat 8 n
  reRead : ∀ T, Toggle divide input T → ∀ n < 3,
    (run divide input (T + 89 + n)).statistical.rightAddr (!written divide input T) =
      (run divide input (T + 88)).statistical.maxRangePointPos - 1 + BitVec.ofNat 8 n
  cleared : ∀ T, Toggle divide input T → ∀ n < 85,
    (run divide input (T + 95 + n)).statistical.rightAddr (!written divide input T) =
      BitVec.ofNat 8 n
  apart : ∀ c bank, ((run divide input c).statistical.rightRden bank = true ∨
    (run divide input c).statistical.rightWren bank = true) → bank ≠ written divide input c

variable {divide input}

section Toggles

variable {T c : ℕ}

theorem division_succ (c : ℕ) : (run divide input (c + 1)).division.toControl =
    (run divide input c).division.toControl.step (input c).toDivision := rfl

theorem statistical_succ (c : ℕ) : (run divide input (c + 1)).statistical.toControl =
    (run divide input c).statistical.toControl.step (input c).zeroFlag (written divide input c) := rfl

theorem sendEnCnt_of_toggle (hT : Toggle divide input T) :
    (run divide input T).division.sendEnCnt = 0 := by
  cases T with
  | zero => exact absurd hT (not_toggled_zero _)
  | succ c => exact GridDivision.Control.step_sendEnCnt_of_toggled hT

/-- A count of `n` shots takes `n - 1` intervals at least. -/
theorem sendEnCnt_bound (hschedule : Schedule input) (hT : Toggle divide input T) (hle : T ≤ c) :
    (run divide input c).division.sendEnCnt.toNat = 0 ∨
      ∃ e < c, (input e).sendEn = true ∧
        T + ((run divide input c).division.sendEnCnt.toNat - 1) * 123 ≤ e := by
  induction c, hle using Nat.le_induction with
  | base =>
      rw [sendEnCnt_of_toggle hT]
      exact .inl rfl
  | succ c hle ih =>
      rcases (run divide input c).division.toControl.step_sendEnCnt (input c).toDivision with
        hzero | hsame | ⟨hone, hshot⟩
      · refine .inl ?_
        rw [division_succ, hzero]
        rfl
      · rw [division_succ, hsame]
        exact ih.imp id fun ⟨e, hlt, hshot, hsum⟩ => ⟨e, by omega, hshot, hsum⟩
      · refine .inr ⟨c, Nat.lt_succ_self c, hshot, ?_⟩
        have hcount : (run divide input (c + 1)).division.sendEnCnt.toNat ≤
            (run divide input c).division.sendEnCnt.toNat + 1 := by
          have hunit : (1 : BitVec 8).toNat = 1 := rfl
          rw [division_succ, hone, BitVec.toNat_add, hunit]
          omega
        rcases ih with hnone | ⟨e, hlt, hbefore, hsum⟩
        · omega
        · have := hschedule.sendEn e c hlt hbefore hshot
          omega

/-- The count of the shots toggles late enough, and the rest is a condition. -/
theorem finished_of_quiet (hschedule : Schedule input) (hquiet : Quiet divide input) {T T' : ℕ}
    (hT : Toggle divide input T) (hT' : Toggle divide input T') (hlt : T < T') : T + 181 ≤ T' := by
  cases T' with
  | zero => omega
  | succ c =>
      rcases GridDivision.Control.step_tannisChange hT' with hidle | ⟨hbusy, hcount | hedge⟩
      · have := hquiet T c hT (by omega) (.inl hidle)
        omega
      · have hpara : 8 ≤ (run divide input c).division.sendEnCnt.toNat :=
          (hschedule.degreePara c).trans_eq (congrArg BitVec.toNat hcount).symm
        rcases sendEnCnt_bound hschedule hT (c := c) (by omega) with hzero | ⟨e, he, -, hsum⟩
        · omega
        · omega
      · have := hquiet T c hT (by omega) (.inr ⟨hbusy, hedge⟩)
        omega

theorem toggle_of_byEdge
    (h : ByEdge (run divide input c).division.toControl (input c).toDivision) :
    Toggle divide input (c + 1) := by
  have hstep : written divide input (c + 1) =
      ((run divide input c).division.toControl.step (input c).toDivision).tannisChange := rfl
  change written divide input (c + 1) ≠ written divide input c
  rw [hstep]
  unfold GridDivision.Control.step
  dsimp only
  rcases h with ⟨hidle, hhigh⟩ | ⟨hbusy, hcount, hwheel, hshots⟩
  · rw [if_pos hidle, written, hhigh]
    exact Bool.false_ne_true
  · rw [if_neg hbusy, if_neg hcount, if_pos hwheel, if_neg hshots]
    exact Bool.not_ne_self _

theorem changed_succ (c : ℕ) :
    (run divide input (c + 1)).statistical.changed = true ↔ Toggle divide input c := by
  cases c with
  | zero => exact iff_of_false Bool.false_ne_true (not_toggled_zero _)
  | succ c =>
      have hchanged : (run divide input (c + 1 + 1)).statistical.changed =
          (written divide input c != written divide input (c + 1)) := rfl
      rw [hchanged, bne_iff_ne]
      exact ne_comm

/-- Both modules wait for the same `zero_flag`. -/
theorem idle_together (c : ℕ) (h : (run divide input c).statistical.cs = .idle) :
    (run divide input c).division.cs = .idle ∧ written divide input c = false := by
  induction c with
  | zero => exact ⟨rfl, rfl⟩
  | succ c ih =>
      have hstat : (run divide input (c + 1)).statistical.cs =
          (run divide input c).statistical.ns (input c).zeroFlag := rfl
      have hdiv : (run divide input (c + 1)).division.cs =
          (run divide input c).division.ns (input c).toDivision := rfl
      have htannis : written divide input (c + 1) =
          ((run divide input c).division.toControl.step (input c).toDivision).tannisChange := rfl
      obtain ⟨hcs, hzero⟩ := GridStatistical.Control.ns_eq_idle (hstat ▸ h)
      obtain ⟨hidle, -⟩ := ih hcs
      have hzero' : (input c).toDivision.zeroFlag = false := hzero
      refine ⟨?_, ?_⟩
      · rw [hdiv]
        simp [GridDivision.Control.ns, hidle, hzero']
      · rw [htannis]
        simp [GridDivision.Control.step, hidle]

theorem not_idle_of_toggle (hT : Toggle divide input (c + 1)) :
    (run divide input c).statistical.cs ≠ .idle := by
  intro hidle
  obtain ⟨hdiv, hlow⟩ := idle_together c hidle
  rcases GridDivision.Control.step_tannisChange hT with ⟨-, hhigh⟩ | ⟨hbusy, -⟩
  · exact Bool.false_ne_true (hlow.symm.trans hhigh)
  · exact hbusy hdiv

/-- The control of `grid_statistical`, as long as toggles are far enough apart. -/
theorem statistical_at (hfinished : ∀ T T', Toggle divide input T → Toggle divide input T' → T < T' →
    T + 181 ≤ T') (c : ℕ) :
    (((run divide input c).statistical.cs = .idle ∨ (run divide input c).statistical.cs = .start1) ∧
        ∀ T ≤ c, ¬ Toggle divide input T) ∨
      ∃ T, Last (Toggle divide input) T c ∧ (run divide input c).statistical.At (c - T) := by
  induction c with
  | zero =>
      refine .inl ⟨.inl rfl, fun T hle => ?_⟩
      rw [Nat.le_zero.mp hle]
      exact not_toggled_zero _
  | succ c ih =>
      rcases ih with ⟨hwaiting, hnone⟩ | ⟨T, hlast, hat⟩
      · have hsame : ¬ (run divide input c).statistical.changed = true := by
          cases c with
          | zero => exact Bool.false_ne_true
          | succ c =>
              rw [changed_succ]
              exact hnone c (Nat.le_succ c)
        by_cases hT : Toggle divide input (c + 1)
        · refine .inr ⟨c + 1, .now hT, ?_⟩
          have hcs := hwaiting.resolve_left (not_idle_of_toggle hT)
          rw [Nat.sub_self, statistical_succ]
          exact GridStatistical.Control.at_zero hcs hsame _ _
        · refine .inl ⟨?_, fun T hle => ?_⟩
          · rw [statistical_succ]
            rcases hwaiting with hcs | hcs
            · cases hzero : (input c).zeroFlag <;>
                simp [GridStatistical.Control.step, GridStatistical.Control.ns, hcs]
            · simp [GridStatistical.Control.step, GridStatistical.Control.ns, hcs, hsame]
          · rcases Nat.lt_or_eq_of_le hle with hlt | rfl
            · exact hnone T (by omega)
            · exact hT
      · have hle := hlast.le
        have hpos : T ≠ 0 := fun h => not_toggled_zero _ (h ▸ hlast.event)
        have hchanged : (run divide input c).statistical.changed = true ↔ c - T = 1 := by
          obtain ⟨d, rfl⟩ : ∃ d, c = d + 1 := ⟨c - 1, by omega⟩
          rw [changed_succ]
          constructor
          · intro hd
            have hafter : ¬ T < d := fun hlt => hlast.none d hlt (Nat.le_succ d) hd
            have hbefore : ¬ d < T := fun hlt => by
              have := hfinished d T hd hlast.event hlt
              omega
            omega
          · intro hone
            obtain rfl : d = T := by omega
            exact hlast.event
        by_cases hT : Toggle divide input (c + 1)
        · have hdone := hfinished T (c + 1) hlast.event hT (by omega)
          refine .inr ⟨c + 1, .now hT, ?_⟩
          rw [Nat.sub_self, statistical_succ]
          exact GridStatistical.Control.at_zero (hat.cs_of_le (by omega))
            (fun h => by have := hchanged.mp h; omega) _ _
        · refine .inr ⟨T, hlast.next hT, ?_⟩
          rw [Nat.succ_sub hle, statistical_succ]
          exact hat.step (fun _ => hchanged) _ _

section Finished

variable (hfinished : ∀ T T', Toggle divide input T → Toggle divide input T' → T < T' → T + 181 ≤ T')

include hfinished

theorem last_of_toggle (hT : Toggle divide input T) (hle : T ≤ c) (hlt : c < T + 181) :
    Last (Toggle divide input) T c where
  event := hT
  le := hle
  none e he hec h := by
    have := hfinished T e hT h he
    omega

theorem written_of_toggle (hT : Toggle divide input T) (hle : T ≤ c) (hlt : c < T + 181) :
    written divide input c = written divide input T :=
  eq_of_not_toggled hle (last_of_toggle hfinished hT hle hlt).none

theorem at_of_toggle (hT : Toggle divide input T) (hle : T ≤ c) (hlt : c < T + 181) :
    (run divide input c).statistical.At (c - T) := by
  rcases statistical_at hfinished c with ⟨-, hnone⟩ | ⟨T', hlast, hat⟩
  · exact absurd hT (hnone T hle)
  · obtain rfl := hlast.unique (last_of_toggle hfinished hT hle hlt)
    exact hat

/-- A state that belongs to a window belongs to the last one. -/
theorem exists_toggle (hidle : (run divide input c).statistical.cs ≠ .idle)
    (hstart1 : (run divide input c).statistical.cs ≠ .start1) :
    ∃ T, Toggle divide input T ∧ T ≤ c ∧ written divide input c = written divide input T ∧
      (run divide input c).statistical.At (c - T) := by
  rcases statistical_at hfinished c with ⟨hwaiting, -⟩ | ⟨T, hlast, hat⟩
  · exact absurd hwaiting (by simp [hidle, hstart1])
  · exact ⟨T, hlast.event, hlast.le, eq_of_not_toggled hlast.le hlast.none, hat⟩

theorem targetValid_iff (c : ℕ) : (run divide input c).statistical.targetValid = true ↔
    ∃ T, Toggle divide input T ∧ c = T + 113 := by
  by_cases hc : c < 4
  · have hlow : (run divide input c).statistical.targetValid = false := by
      match c, hc with
      | 0, _ => rfl
      | 1, _ => rfl
      | 2, _ => rfl
      | 3, _ => rfl
    rw [hlow]
    exact iff_of_false Bool.false_ne_true fun ⟨T, _, hT⟩ => by omega
  · obtain ⟨d, rfl⟩ : ∃ d, c = d + 4 := ⟨c - 4, by omega⟩
    have hdelay : (run divide input (d + 4)).statistical.targetValid =
        ((run divide input d).statistical.cs == .clear &&
          (run divide input d).statistical.stateCnt == 15) := rfl
    have h15 := GridStatistical.stateCnt_eq_iff (run divide input d).statistical.toControl 15
      (by decide)
    rw [hdelay, Bool.and_eq_true, beq_iff_eq, beq_iff_eq]
    constructor
    · rintro ⟨hclear, hcnt⟩
      obtain ⟨T, hT, hle, -, hat⟩ := exists_toggle hfinished (c := d) (by simp [hclear])
        (by simp [hclear])
      have := hat.stateCnt_of_clear hclear
      have := h15.mp hcnt
      exact ⟨T, hT, by omega⟩
    · rintro ⟨T, hT, hsum⟩
      have hat := at_of_toggle hfinished hT (c := d) (by omega) (by omega)
      have hclear := hat.cs_eq_clear.mpr (by omega)
      have := hat.stateCnt_of_clear hclear
      exact ⟨hclear, h15.mpr (by omega)⟩

theorem rightWren_iff (c : ℕ) (bank : Bool) :
    (run divide input c).statistical.rightWren bank = true ↔
      ∃ T, Toggle divide input T ∧ bank = !written divide input T ∧ T + 95 ≤ c ∧ c < T + 180 := by
  cases c with
  | zero => exact iff_of_false Bool.false_ne_true fun ⟨T, _, _, hT, _⟩ => by omega
  | succ c =>
      have hport : (run divide input (c + 1)).statistical.rightWren bank =
          (bank != written divide input c && (run divide input c).statistical.cs == .clear) := rfl
      rw [hport, Bool.and_eq_true, beq_iff_eq, bne_iff_ne, ← Bool.eq_not]
      constructor
      · rintro ⟨hbank, hclear⟩
        obtain ⟨T, hT, hle, hsame, hat⟩ := exists_toggle hfinished (c := c) (by simp [hclear])
          (by simp [hclear])
        have := hat.cs_eq_clear.mp hclear
        exact ⟨T, hT, hsame ▸ hbank, by omega, by omega⟩
      · rintro ⟨T, hT, hbank, hlo, hhi⟩
        rw [written_of_toggle hfinished hT (c := c) (by omega) (by omega)]
        have hat := at_of_toggle hfinished hT (c := c) (by omega) (by omega)
        exact ⟨hbank, hat.cs_eq_clear.mpr (by omega)⟩

theorem rightRden_iff (c : ℕ) (bank : Bool) :
    (run divide input c).statistical.rightRden bank = true ↔
      ∃ T, Toggle divide input T ∧ bank = !written divide input T ∧
        (T + 3 ≤ c ∧ c < T + 86 ∨ T + 89 ≤ c ∧ c < T + 92 ∨ c = T + 180) := by
  cases c with
  | zero => exact iff_of_false Bool.false_ne_true fun ⟨T, _, _, hT⟩ => by omega
  | succ c =>
      have hport : (run divide input (c + 1)).statistical.rightRden bank =
          (bank != written divide input c &&
            ((run divide input c).statistical.cs == .count ||
              (run divide input c).statistical.cs == .reRead ||
              (run divide input c).statistical.cs == .reset)) := rfl
      rw [hport, Bool.and_eq_true, Bool.or_eq_true, Bool.or_eq_true, beq_iff_eq, beq_iff_eq,
        beq_iff_eq, bne_iff_ne, ← Bool.eq_not]
      constructor
      · rintro ⟨hbank, hreads⟩
        obtain ⟨T, hT, hle, hsame, hat⟩ := exists_toggle hfinished (c := c)
          (by rcases hreads with (h | h) | h <;> simp [h])
          (by rcases hreads with (h | h) | h <;> simp [h])
        rw [hat.cs_eq_count, hat.cs_eq_reRead, hat.cs_eq_reset] at hreads
        exact ⟨T, hT, hsame ▸ hbank, by omega⟩
      · rintro ⟨T, hT, hbank, hclock⟩
        rw [written_of_toggle hfinished hT (c := c) (by omega) (by omega)]
        have hat := at_of_toggle hfinished hT (c := c) (by omega) (by omega)
        rw [hat.cs_eq_count, hat.cs_eq_reRead, hat.cs_eq_reset]
        exact ⟨hbank, by omega⟩

/-- The address of the bank that is read is that of one clock before. -/
theorem rightAddr_succ (hT : Toggle divide input T) (hle : T ≤ c) (hlt : c < T + 181) :
    (run divide input (c + 1)).statistical.rightAddr (!written divide input T) =
      GridStatistical.nextAddr (run divide input c).statistical
        ((run divide input c).statistical.rightAddr (!written divide input T)) := by
  have hport : (run divide input (c + 1)).statistical.rightAddr (!written divide input T) =
      if (!written divide input T) ≠ written divide input c then
        GridStatistical.nextAddr (run divide input c).statistical
          ((run divide input c).statistical.rightAddr (!written divide input T))
      else 0 := rfl
  rw [hport, written_of_toggle hfinished hT hle hlt, if_pos (Bool.not_ne_self _)]

theorem scanned (hT : Toggle divide input T) {n : ℕ} (hn : n < 83) :
    (run divide input (T + 3 + n)).statistical.rightAddr (!written divide input T) =
      BitVec.ofNat 8 n := by
  have hclock : T + 3 + n = T + 2 + n + 1 := by omega
  have hat := at_of_toggle hfinished hT (c := T + 2 + n) (by omega) (by omega)
  have hcs := hat.cs_eq_count.mpr (by omega)
  have hcnt := hat.stateCnt_of_count hcs
  rw [hclock, rightAddr_succ hfinished hT (by omega) (by omega), GridStatistical.nextAddr,
    if_pos hcs, ← BitVec.toNat_inj, BitVec.toNat_setWidth, BitVec.toNat_ofNat]
  omega

theorem cleared (hT : Toggle divide input T) {n : ℕ} (hn : n < 85) :
    (run divide input (T + 95 + n)).statistical.rightAddr (!written divide input T) =
      BitVec.ofNat 8 n := by
  have hclock : T + 95 + n = T + 94 + n + 1 := by omega
  have hat := at_of_toggle hfinished hT (c := T + 94 + n) (by omega) (by omega)
  have hcs := hat.cs_eq_clear.mpr (by omega)
  have hcnt := hat.stateCnt_of_clear hcs
  rw [hclock, rightAddr_succ hfinished hT (by omega) (by omega), GridStatistical.nextAddr, hcs,
    if_neg (by decide), if_neg (by decide), if_pos rfl, ← BitVec.toNat_inj, BitVec.toNat_setWidth,
    BitVec.toNat_ofNat]
  omega

/-- The fullest cell stands while the cells are read again. -/
theorem maxRangePointPos_keep (hT : Toggle divide input T) {n : ℕ} (hn : n < 3) :
    (run divide input (T + 88 + n)).statistical.maxRangePointPos =
      (run divide input (T + 88)).statistical.maxRangePointPos := by
  induction n with
  | zero => rfl
  | succ n ih =>
      have hvalid : (run divide input (T + 86 + n + 2)).statistical.ramDataValidR1 =
          ((run divide input (T + 86 + n)).statistical.cs == .count ||
            (run divide input (T + 86 + n)).statistical.cs == .reRead) := rfl
      have hat := at_of_toggle hfinished hT (c := T + 86 + n) (by omega) (by omega)
      have hwait := hat.cs_eq_wait.mpr (by omega)
      have hat' := at_of_toggle hfinished hT (c := T + 88 + n) (by omega) (by omega)
      have hreRead := hat'.cs_eq_reRead.mpr (by omega)
      have hclock : T + 86 + n + 2 = T + 88 + n := by omega
      have hlow : (run divide input (T + 88 + n)).statistical.ramDataValidR1 = false := by
        rw [← hclock, hvalid, hwait]
        rfl
      rw [← ih (by omega)]
      have hscan : (run divide input (T + 88 + n + 1)).statistical.maxRangePointPos =
          (GridStatistical.scanStep (run divide input (T + 88 + n)).statistical
            (input (T + 88 + n)).validNumThreshold
            ((run divide input (T + 88 + n)).gridRam
              (!written divide input (T + 88 + n))).qB).maxRangePointPos := rfl
      have hnext : T + 88 + (n + 1) = T + 88 + n + 1 := by omega
      rw [hnext, hscan, GridStatistical.scanStep, if_neg (by simp [hreRead]),
        if_neg (by simp [hlow])]

theorem reRead (hT : Toggle divide input T) {n : ℕ} (hn : n < 3) :
    (run divide input (T + 89 + n)).statistical.rightAddr (!written divide input T) =
      (run divide input (T + 88)).statistical.maxRangePointPos - 1 + BitVec.ofNat 8 n := by
  have hclock : T + 89 + n = T + 88 + n + 1 := by omega
  have hat := at_of_toggle hfinished hT (c := T + 88 + n) (by omega) (by omega)
  have hcs := hat.cs_eq_reRead.mpr (by omega)
  have hcnt := hat.stateCnt_of_reRead hcs
  have hwidth : (run divide input (T + 88 + n)).statistical.stateCnt.setWidth 8 =
      BitVec.ofNat 8 n := by
    rw [← BitVec.toNat_inj, BitVec.toNat_setWidth, BitVec.toNat_ofNat]
    omega
  rw [hclock, rightAddr_succ hfinished hT (by omega) (by omega), GridStatistical.nextAddr, hcs,
    if_neg (by decide), if_pos rfl, hwidth, maxRangePointPos_keep hfinished hT hn]

theorem ne_written (c : ℕ) (bank : Bool)
    (h : (run divide input c).statistical.rightRden bank = true ∨
      (run divide input c).statistical.rightWren bank = true) : bank ≠ written divide input c := by
  rw [rightRden_iff hfinished, rightWren_iff hfinished] at h
  have hbank : ∃ T, Toggle divide input T ∧ bank = !written divide input T ∧ T ≤ c ∧
      c < T + 181 := by
    rcases h with ⟨T, hT, hbank, hclock⟩ | ⟨T, hT, hbank, hlo, hhi⟩
    · exact ⟨T, hT, hbank, by omega, by omega⟩
    · exact ⟨T, hT, hbank, by omega, by omega⟩
  obtain ⟨T, hT, rfl, hle, hlt⟩ := hbank
  rw [written_of_toggle hfinished hT hle hlt]
  exact Bool.not_ne_self _

end Finished

end Toggles

/-- **The double buffer holds exactly if the edges leave every window its clocks.** -/
theorem disciplined_iff_quiet (divide : BitVec 24 → BitVec 9 → BitVec 24) {input : ℕ → Input}
    (hschedule : Schedule input) : Disciplined divide input ↔ Quiet divide input := by
  constructor
  · intro h T c hT hle hedge
    have := h.finished T (c + 1) hT (toggle_of_byEdge hedge) (by omega)
    omega
  · intro hquiet
    have hfinished (T T' : ℕ) (hT : Toggle divide input T) (hT' : Toggle divide input T')
        (hlt : T < T') : T + 181 ≤ T' := finished_of_quiet hschedule hquiet hT hT' hlt
    exact {
      finished := hfinished
      targetValid := targetValid_iff hfinished
      rden := rightRden_iff hfinished
      wren := rightWren_iff hfinished
      scanned := fun T hT n hn => scanned hfinished hT hn
      reRead := fun T hT n hn => reRead hfinished hT hn
      cleared := fun T hT n hn => cleared hfinished hT hn
      apart := ne_written hfinished }

/-- A shot every 123 clocks and eight shots to a window. The edge of a tooth comes with clock `tooth`. -/
def eightShots (tooth : ℕ) (c : ℕ) : Input where
  sendEn := c % 123 == 0
  validIn := false
  distanceIn := 0
  grayIn := 0
  zeroFlag := c == 0
  wheelFall := c == tooth
  stepCnt := 0
  degreePara := 8
  validNumThreshold := 10
  correctPulseWidth := 0

theorem schedule_eightShots (tooth : ℕ) : Schedule (eightShots tooth) where
  sendEn c d hlt hc hd := by
    simp only [eightShots, beq_iff_eq] at hc hd
    omega
  degreePara c := le_rfl
  wheelFall c d hlt hc hd := by
    simp only [eightShots, beq_iff_eq] at hc hd
    omega

theorem quiet_eightShots (divide : BitVec 24 → BitVec 9 → BitVec 24) :
    Quiet divide (eightShots 0) := by
  have hlow (c : ℕ) (hidle : (run divide (eightShots 0) c).division.cs = .idle) :
      written divide (eightShots 0) c = false := by
    cases c with
    | zero => rfl
    | succ c => exact (GridDivision.Control.cs_of_step_idle hidle (Nat.zero_lt_succ 42)).2
  intro T c hT hle hedge
  rcases hedge with ⟨hidle, hhigh⟩ | ⟨hbusy, -, hwheel, -⟩
  · exact absurd ((hlow c hidle).symm.trans hhigh) Bool.false_ne_true
  · obtain rfl : c = 0 := beq_iff_eq.mp hwheel
    exact absurd rfl hbusy

theorem disciplined_eightShots : Disciplined (fun numer denom => numer / denom.setWidth 24)
    (eightShots 0) :=
  (disciplined_iff_quiet _ (schedule_eightShots 0)).mpr (quiet_eightShots _)

theorem division_run (divide : BitVec 24 → BitVec 9 → BitVec 24) (input : ℕ → Input) (c : ℕ) :
    (run divide input c).division.toControl =
      trace GridDivision.Control.step GridDivision.Control.powerUp
        (fun c => (input c).toDivision) c := by
  induction c with
  | zero => rfl
  | succ c ih =>
      rw [division_succ, ih]
      rfl

/-- The edge of a tooth 123 clocks behind the last shot of a window: the two toggles are as close. -/
theorem not_disciplined : ¬ ∀ (divide : BitVec 24 → BitVec 9 → BitVec 24) (input : ℕ → Input),
    Schedule input → Disciplined divide input := by
  intro h
  have hfinished := (h (fun numer _ => numer) (eightShots 1108) (schedule_eightShots 1108)).finished
  have hwritten (c : ℕ) : written (fun numer _ => numer) (eightShots 1108) c =
      (trace GridDivision.Control.step GridDivision.Control.powerUp
        (fun c => (eightShots 1108 c).toDivision) c).tannisChange :=
    congrArg GridDivision.Control.tannisChange (division_run _ _ c)
  have hfirst : Toggle (fun numer _ => numer) (eightShots 1108) 986 := by
    change written _ _ 986 ≠ written _ _ 985
    rw [hwritten, hwritten]
    decide +kernel
  have hsecond : Toggle (fun numer _ => numer) (eightShots 1108) 1109 := by
    change written _ _ 1109 ≠ written _ _ 1108
    rw [hwritten, hwritten]
    decide +kernel
  exact absurd (hfinished 986 1109 hfirst hsecond (by decide)) (by decide)

end CalcDistance

end SingleScan
