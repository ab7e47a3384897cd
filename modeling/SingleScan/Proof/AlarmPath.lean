import SingleScan.AlarmPath
import SingleScan.Proof.DataSelect

/-!
# Where the comparison stands

The machine of `compare_region` has no link to the one of `data_select` but the edge of `cycle_enable`
and the 811 valid pulses. The two invariants here say how they stay together: `Resting` while no
window is open or the comparison is through with it, and `Live` from the opening of a window to its
last distance, for every number of distances taken and every number of clocks since the last one.
-/

namespace SingleScan.AlarmPath

open Clocked CompareRegion
open DataSelect (ns_of_idle ns_of_skip ns_of_enable ns_of_over dataOutValid_of_enabled
  dataOutValid_of_closed cycleEnable_eq_true)

/-! ### The pace of the measurement -/

/-- The clocks since the last measured distance, or since reset. -/
def sinceSample (input : ℕ → Input) : ℕ → ℕ
  | 0 => 0
  | t + 1 => if (input t).select.dataInValid then 1 else sinceSample input t + 1

theorem sinceSample_of_quiet {input : ℕ → Input} {t : ℕ}
    (h : (input t).select.dataInValid = false) :
    sinceSample input (t + 1) = sinceSample input t + 1 := by
  rw [sinceSample, h, if_neg Bool.false_ne_true]

theorem sinceSample_of_sample {input : ℕ → Input} {t : ℕ}
    (h : (input t).select.dataInValid = true) : sinceSample input (t + 1) = 1 := by
  rw [sinceSample, h, if_pos rfl]

/-- The distances are more than 41 clocks apart, and `angle_offset` is one of those that
`pc2dev_parse` lets through. -/
structure Paced (input : ℕ → Input) : Prop where
  apart : ∀ t, (input t).select.dataInValid = true → 41 < sinceSample input t
  angle : ∀ t, 2 ≤ (input t).select.angleOffset.toNat ∧ (input t).select.angleOffset.toNat ≤ 240

/-! ### The invariants -/

/-- The state of the comparison when `n` distances are taken, `g` clocks after the last one. The
distance before the window counts for `n = 0`. -/
def phaseAt (n g : ℕ) : Phase :=
  if n = 0 then if g ≤ 3 then .idle else if g = 4 then .read else .compare
  else if g = 1 then .isEnd
  else if n = targetNumber then .idle
  else if g = 2 then .read
  else .compare

/-- A window is open and `n` distances of it are taken, the last one `g` clocks ago. -/
structure Live (n g : ℕ) (s : State) : Prop where
  enabled : s.select.cs = .enable
  lock : 2 ≤ s.select.angleOffsetLock.toNat
  offset : s.select.offsetCnt.toNat + 1 ≤ s.select.angleOffsetLock.toNat + n
  few : n ≤ targetNumber
  late : if n = 0 then 2 ≤ g else 1 ≤ g
  phase : s.compare.cs = phaseAt n g
  opening : n = 0 → g = 2 → s.compare.cycleEnableR.2 = false
  rising : n = 0 → g = 3 → s.compare.cycleEnableR = (false, true)
  high : 0 < n ∨ 4 ≤ g → s.compare.cycleEnableR = (true, true)
  rdCnt : 0 < n ∨ 3 ≤ g → g = 1 ∨ n < targetNumber → s.compare.rdCnt.toNat = n
  cnt : s.compare.cnt.toNat = if n = 0 then 41 else min (g - 1) 41

/-- No window is open, or the comparison is through with it. -/
structure Resting (g : ℕ) (s : State) : Prop where
  phase : s.compare.cs = .idle
  calm : s.compare.cycleEnableR ≠ (false, true)
  high : s.select.cs = .enable → s.compare.cycleEnableR.2 = true
  lock : s.select.cs = .skip → 2 ≤ s.select.angleOffsetLock.toNat
  arrived : s.select.cs = .skip →
    s.select.offsetCnt.toNat + 1 = s.select.angleOffsetLock.toNat → g = 1 ∧ s.compare.cnt.toNat = 41
  cnt : s.compare.cnt.toNat = 41 ∨ g ≤ s.compare.cnt.toNat + 1
  small : s.compare.cnt.toNat ≤ 41

/-! ### One clock of the registers -/

section Registers

variable (s : State) (i : Input)

@[simp]
theorem step_select_cs : (step s i).select.cs = s.select.ns i.select := rfl

@[simp]
theorem step_lock :
    (step s i).select.angleOffsetLock =
      if s.select.cs = .idle then i.select.angleOffset else s.select.angleOffsetLock := rfl

@[simp]
theorem step_cs : (step s i).compare.cs = s.compare.ns (s.compareInput i) := rfl

@[simp]
theorem step_cycleEnableR :
    (step s i).compare.cycleEnableR = (s.compare.cycleEnableR.2, s.select.cycleEnable) := rfl

theorem step_offsetCnt :
    (step s i).select.offsetCnt.toNat =
      if i.select.zeroFlag then 0
      else if i.select.dataInValid then (s.select.offsetCnt.toNat + 1) % 2 ^ 16
      else s.select.offsetCnt.toNat := by
  simp only [step, DataSelect.step]
  split_ifs <;> simp

theorem step_offsetCnt_le : (step s i).select.offsetCnt.toNat ≤ s.select.offsetCnt.toNat + 1 := by
  rw [step_offsetCnt]
  split_ifs <;> omega

theorem step_offsetCnt_le_of_quiet (hquiet : i.select.dataInValid = false) :
    (step s i).select.offsetCnt.toNat ≤ s.select.offsetCnt.toNat := by
  rw [step_offsetCnt, hquiet]
  split_ifs <;> simp_all

theorem step_lock_of_ne_idle (hcs : s.select.cs ≠ .idle) :
    (step s i).select.angleOffsetLock = s.select.angleOffsetLock := by
  rw [step_lock, if_neg hcs]

theorem step_rdCnt :
    (step s i).compare.rdCnt.toNat =
      if s.compare.cs = .idle then 0
      else if s.select.dataOutValid i.select then (s.compare.rdCnt.toNat + 1) % 2 ^ 16
      else s.compare.rdCnt.toNat := by
  change BitVec.toNat (if s.compare.cs = .idle then 0
    else if s.select.dataOutValid i.select then s.compare.rdCnt + 1 else s.compare.rdCnt) = _
  split_ifs <;> simp

theorem step_cnt :
    (step s i).compare.cnt.toNat =
      if s.select.dataOutValid i.select then 0
      else if 40 < s.compare.cnt.toNat then 41
      else s.compare.cnt.toNat + 1 := by
  change BitVec.toNat (if s.select.dataOutValid i.select then 0
    else if 40 < s.compare.cnt.toNat then 41 else s.compare.cnt + 1) = _
  split_ifs with hvalid hfull
  · rfl
  · rfl
  · rw [BitVec.toNat_add]
    exact Nat.mod_eq_of_lt (by simp; omega)

theorem step_rddata (k : Layer) :
    (step s i).rddata k =
      if s.compare.cs = .read then i.ram k (s.compare.rdCnt.setWidth 10) else s.rddata k := by
  by_cases hread : s.compare.cs = .read <;>
    simp [step, CompareRegion.State.regionRden, CompareRegion.State.regionRdaddr, hread]

theorem step_regionFlag_of_closed (k : Layer) (hclosed : s.select.cs ≠ .enable) :
    (step s i).compare.regionFlag k = s.compare.regionFlag k := by
  change (if s.select.cycleEnable then _ else s.compare.regionFlag k) = _
  rw [if_neg (by simpa [cycleEnable_eq_true] using hclosed)]

end Registers

/-! ### The moves of the two machines -/

theorem phaseAt_eq_idle_iff {n g : ℕ} :
    phaseAt n g = .idle ↔ n = 0 ∧ g ≤ 3 ∨ n = targetNumber ∧ g ≠ 1 := by
  unfold phaseAt targetNumber
  split_ifs <;> simp <;> omega

theorem phaseAt_eq_read_iff {n g : ℕ} :
    phaseAt n g = .read ↔ n = 0 ∧ g = 4 ∨ n ≠ 0 ∧ n ≠ targetNumber ∧ g = 2 := by
  unfold phaseAt
  split_ifs <;> simp <;> omega

theorem phaseAt_eq_compare_iff {n g : ℕ} :
    phaseAt n g = .compare ↔
      n = 0 ∧ 5 ≤ g ∨ n ≠ 0 ∧ n ≠ targetNumber ∧ g ≠ 1 ∧ g ≠ 2 := by
  unfold phaseAt
  split_ifs <;> simp <;> omega

theorem phaseAt_eq_isEnd_iff {n g : ℕ} : phaseAt n g = .isEnd ↔ n ≠ 0 ∧ g = 1 := by
  unfold phaseAt
  split_ifs <;> simp <;> omega

theorem ns_phaseAt {n g : ℕ} {s : State} {i : Input} (h : Live n g s)
    (hquiet : s.select.dataOutValid i.select = false) :
    s.compare.ns (s.compareInput i) = phaseAt n (g + 1) := by
  have hlate := h.late
  have hfew := h.few
  have hphase := h.phase
  have hsize : targetNumber = 811 := rfl
  symm
  unfold State.ns
  cases hcs : s.compare.cs with
  | idle =>
      rw [hphase, phaseAt_eq_idle_iff] at hcs
      by_cases hrise : n = 0 ∧ g = 3
      · simp [State.cycleEnableRise, h.rising hrise.1 hrise.2, phaseAt_eq_read_iff, hrise]
      · have hcalm : s.compare.cycleEnableRise = false := by
          rcases Nat.eq_zero_or_pos n with rfl | hn
          · have hg : g = 2 := by
              simp only [if_true] at hlate
              omega
            simp [State.cycleEnableRise, Prod.ext_iff, h.opening rfl hg]
          · simp [State.cycleEnableRise, h.high (.inl hn)]
        simp only [hcalm, Bool.false_eq_true, if_false, phaseAt_eq_idle_iff]
        split_ifs at hlate <;> omega
  | read =>
      rw [hphase, phaseAt_eq_read_iff] at hcs
      exact phaseAt_eq_compare_iff.2 (by omega)
  | compare =>
      rw [hphase, phaseAt_eq_compare_iff] at hcs
      simp only [State.compareInput, hquiet, Bool.false_eq_true, if_false, phaseAt_eq_compare_iff]
      split_ifs at hlate <;> omega
  | isEnd =>
      rw [hphase, phaseAt_eq_isEnd_iff] at hcs
      simp only [h.rdCnt (.inl (by omega)) (.inl hcs.2)]
      split_ifs with hall
      · exact phaseAt_eq_idle_iff.2 (.inr ⟨hall, by omega⟩)
      · exact phaseAt_eq_read_iff.2 (.inr ⟨hcs.1, hall, by omega⟩)
  | dly | «over» =>
      rw [hphase, phaseAt] at hcs
      split_ifs at hcs

/-! ### One clock of the invariants -/

/-- At rest the comparison stays at rest, whatever `data_select` does, until a window opens. -/
theorem step_resting_phase {g : ℕ} {s : State} (i : Input) (h : Resting g s) :
    (step s i).compare.cs = .idle := by
  have hcalm := h.calm
  simp [State.ns, h.phase, State.cycleEnableRise, hcalm]

theorem live_quiet {n g : ℕ} {s : State} {i : Input} (h : Live n g s)
    (hquiet : i.select.dataInValid = false) (hopen : s.select.ns i.select = .enable) :
    Live n (g + 1) (step s i) := by
  have hvalid : s.select.dataOutValid i.select = false := by
    rw [dataOutValid_of_enabled _ h.enabled, hquiet]
  have hlock := step_lock_of_ne_idle s i (by simp [h.enabled])
  have hoffset := step_offsetCnt_le_of_quiet s i hquiet
  have henable := cycleEnable_eq_true.2 h.enabled
  have hbound := h.offset
  have hlate := h.late
  constructor
  · rw [step_select_cs, hopen]
  · rw [hlock]
    exact h.lock
  · rw [hlock]
    omega
  · exact h.few
  · split_ifs at hlate ⊢ <;> omega
  · rw [step_cs]
    exact ns_phaseAt h hvalid
  · intro hn hg
    rw [if_pos hn] at hlate
    omega
  · intro hn hg
    rw [step_cycleEnableR, h.opening hn (by omega), henable]
  · intro hhigh
    rw [step_cycleEnableR, henable]
    by_cases hrise : n = 0 ∧ g = 3
    · rw [h.rising hrise.1 hrise.2]
    · rw [h.high (by omega)]
  · intro hbegun hlast
    have hmore : n < targetNumber := by
      split_ifs at hlate <;> omega
    rw [step_rdCnt, hvalid]
    by_cases hidle : s.compare.cs = .idle
    · rw [if_pos hidle]
      rw [h.phase, phaseAt_eq_idle_iff] at hidle
      omega
    · rw [if_neg hidle, if_neg (by simp)]
      rw [h.phase, phaseAt_eq_idle_iff] at hidle
      exact h.rdCnt (by omega) (.inr hmore)
  · rw [step_cnt, hvalid, h.cnt]
    by_cases hn : n = 0
    · simp [hn]
    · simp only [if_neg hn] at hlate ⊢
      split_ifs <;> first | omega | simp_all

/-- A distance in an open window that has not seen all of them. -/
theorem live_sample {n g : ℕ} {s : State} {i : Input} (h : Live n g s)
    (hvalid : i.select.dataInValid = true) (hg : 41 < g) (hn : n < targetNumber)
    (hopen : s.select.ns i.select = .enable) : Live (n + 1) 1 (step s i) := by
  have hout : s.select.dataOutValid i.select = true := by
    rw [dataOutValid_of_enabled _ h.enabled, hvalid]
  have hlock := step_lock_of_ne_idle s i (by simp [h.enabled])
  have hoffset := step_offsetCnt_le s i
  have hbound := h.offset
  have hsize : targetNumber = 811 := rfl
  have hcs : s.compare.cs = .compare := by
    rw [h.phase, phaseAt_eq_compare_iff]
    omega
  constructor
  · rw [step_select_cs, hopen]
  · rw [hlock]
    exact h.lock
  · rw [hlock]
    omega
  · exact hn
  · simp
  · rw [step_cs]
    simp [State.ns, hcs, State.compareInput, hout, phaseAt]
  · simp
  · simp
  · intro _
    rw [step_cycleEnableR, cycleEnable_eq_true.2 h.enabled, h.high (.inr (by omega))]
  · intro _ _
    rw [step_rdCnt, hcs, hout, h.rdCnt (.inr (by omega)) (.inr hn), if_neg (by simp), if_pos rfl]
    omega
  · rw [step_cnt, hout]
    simp

/-- A window that closes, or has seen all its distances, leaves the comparison at rest. -/
theorem live_done {n g g' : ℕ} {s : State} {i : Input} (h : Live n g s)
    (hg' : g' = if i.select.dataInValid then 1 else g + 1)
    (hdone : s.select.ns i.select ≠ .enable ∨ n = targetNumber ∧ i.select.dataInValid = true) :
    Resting g' (step s i) := by
  have hsize : targetNumber = 811 := rfl
  have hns := ns_of_enable i.select h.enabled
  have hall : n = targetNumber := by
    rcases hdone with hclose | ⟨hall, -⟩
    · have hend : s.select.angleOffsetLock.toNat + targetNumber - 1 ≤ s.select.offsetCnt.toNat := by
        by_contra hmore
        rw [if_neg hmore] at hns
        exact hclose hns
      have hbound := h.offset
      have hfew := h.few
      have hlock := h.lock
      omega
    · exact hall
  have hhigh : (step s i).compare.cycleEnableR = (true, true) := by
    rw [step_cycleEnableR, cycleEnable_eq_true.2 h.enabled, h.high (.inl (by omega))]
  have hskip : (step s i).select.cs ≠ .skip := by
    rw [step_select_cs, hns]
    split_ifs <;> simp
  have hlate := h.late
  rw [if_neg (show n ≠ 0 by omega)] at hlate
  have hcnt := h.cnt
  rw [if_neg (show n ≠ 0 by omega)] at hcnt
  have hstep := step_cnt s i
  rw [dataOutValid_of_enabled _ h.enabled] at hstep
  constructor
  · rw [step_cs]
    have hphase := h.phase
    by_cases hg : g = 1
    · have hcs : s.compare.cs = .isEnd := by
        rw [hphase, phaseAt_eq_isEnd_iff]
        omega
      have hrd := h.rdCnt (.inl (by omega)) (.inl hg)
      simp [State.ns, hcs, hrd, hall]
    · have hcs : s.compare.cs = .idle := by
        rw [hphase, phaseAt_eq_idle_iff]
        omega
      have hcalm : s.compare.cycleEnableRise = false := by
        simp [State.cycleEnableRise, h.high (.inl (by omega))]
      simp [State.ns, hcs, hcalm]
  · rw [hhigh]
    simp
  · intro _
    rw [hhigh]
  · exact fun h => absurd h hskip
  · exact fun h => absurd h hskip
  · rw [hstep, hg']
    split_ifs <;> omega
  · rw [hstep]
    split_ifs <;> omega

/-- The window opens two clocks behind a distance. -/
theorem resting_opens {g : ℕ} {s : State} {i : Input} (h : Resting g s)
    (hpace : i.select.dataInValid = true → 41 < g) (hclosed : s.select.cs ≠ .enable)
    (hopen : s.select.ns i.select = .enable) :
    g = 1 ∧ i.select.dataInValid = false ∧ Live 0 2 (step s i) := by
  obtain ⟨hskip, harrived⟩ : s.select.cs = .skip ∧
      s.select.offsetCnt.toNat + 1 = s.select.angleOffsetLock.toNat := by
    cases hcs : s.select.cs with
    | idle =>
        rw [ns_of_idle _ hcs] at hopen
        split_ifs at hopen
    | skip =>
        rw [ns_of_skip _ hcs] at hopen
        split_ifs at hopen with harrived
        exact ⟨rfl, harrived⟩
    | enable => exact absurd hcs hclosed
    | «over» => simp [ns_of_over _ hcs] at hopen
  obtain ⟨hg, hcnt⟩ := h.arrived hskip harrived
  have hquiet : i.select.dataInValid = false := by
    by_contra hvalid
    have := hpace (by simpa using hvalid)
    omega
  have hlock := step_lock_of_ne_idle s i (by simp [hskip])
  have hoffset := step_offsetCnt_le_of_quiet s i hquiet
  have hlow : s.select.cycleEnable = false := by
    simpa [DataSelect.State.cycleEnable] using hclosed
  refine ⟨hg, hquiet, ?_⟩
  constructor
  · rw [step_select_cs, hopen]
  · rw [hlock]
    exact h.lock hskip
  · rw [hlock]
    omega
  · exact Nat.zero_le _
  · simp
  · rw [step_resting_phase i h]
    simp [phaseAt]
  · intro _ _
    rw [step_cycleEnableR, hlow]
  · simp
  · simp
  · simp
  · rw [step_cnt, dataOutValid_of_closed _ hclosed, hcnt]
    simp

theorem resting_step {g g' : ℕ} {s : State} {i : Input} (h : Resting g s)
    (hg' : g' = if i.select.dataInValid then 1 else g + 1)
    (hpace : i.select.dataInValid = true → 41 < g) (hangle : 2 ≤ i.select.angleOffset.toNat)
    (hstay : s.select.cs = .enable ∨ s.select.ns i.select ≠ .enable) : Resting g' (step s i) := by
  have hcnt := h.cnt
  have hsmall := h.small
  have hstep := step_cnt s i
  -- `data_select` comes to `SKIP` with a fresh count or has been there
  have hskip : (step s i).select.cs = .skip →
      s.select.cs = .idle ∧ i.select.zeroFlag = true ∨
        s.select.cs = .skip ∧ s.select.offsetCnt.toNat + 1 ≠ s.select.angleOffsetLock.toNat := by
    rw [step_select_cs]
    intro hns
    cases hcs : s.select.cs with
    | idle =>
        rw [ns_of_idle _ hcs] at hns
        split_ifs at hns with hzero
        exact .inl ⟨rfl, hzero⟩
    | skip =>
        rw [ns_of_skip _ hcs] at hns
        split_ifs at hns with harrived
        exact .inr ⟨rfl, harrived⟩
    | enable =>
        rw [ns_of_enable _ hcs] at hns
        split_ifs at hns
    | «over» => simp [ns_of_over _ hcs] at hns
  constructor
  · exact step_resting_phase i h
  · rw [step_cycleEnableR]
    intro hrise
    obtain ⟨hlow, henable⟩ := Prod.ext_iff.1 hrise
    have hhigh := h.high (cycleEnable_eq_true.1 henable)
    simp [hhigh] at hlow
  · intro hopen
    rcases hstay with henabled | hclosed
    · rw [step_cycleEnableR, cycleEnable_eq_true.2 henabled]
    · exact absurd hopen hclosed
  · intro hns
    rcases hskip hns with ⟨hidle, -⟩ | ⟨hcs, -⟩
    · rw [step_lock, if_pos hidle]
      exact hangle
    · rw [step_lock_of_ne_idle _ _ (by simp [hcs])]
      exact h.lock hcs
  · intro hns harrived
    rcases hskip hns with ⟨hidle, hzero⟩ | ⟨hcs, hbefore⟩
    · rw [step_lock, if_pos hidle, step_offsetCnt, if_pos hzero] at harrived
      omega
    · rw [step_lock_of_ne_idle _ _ (by simp [hcs]), step_offsetCnt] at harrived
      have hlock := h.lock hcs
      rw [dataOutValid_of_closed _ (by simp [hcs])] at hstep
      split_ifs at harrived with hzero hvalid
      · omega
      · have hg := hpace hvalid
        rw [hvalid, if_pos rfl] at hg'
        refine ⟨hg', ?_⟩
        rw [hstep, if_neg (by simp)]
        split_ifs <;> omega
      · exact absurd harrived hbefore
  · rw [hstep, hg']
    by_cases hvalid : i.select.dataInValid = true
    · rw [if_pos hvalid]
      omega
    · rw [if_neg hvalid, if_neg (by simp [DataSelect.State.dataOutValid, hvalid])]
      split_ifs <;> omega
  · rw [hstep]
    split_ifs <;> omega

/-! ### Every clock -/

/-- What holds at every clock, `g` clocks behind the last distance. -/
def Control (g : ℕ) (s : State) : Prop := Resting g s ∨ ∃ n, Live n g s

theorem resting_reset (compare : CompareRegion.State) (rddata : Layer → BitVec 18) :
    Resting 0 (State.reset compare rddata) := by
  constructor <;> simp [State.reset, DataSelect.State.reset, CompareRegion.State.reset]

theorem control_step {g g' : ℕ} {s : State} {i : Input} (h : Control g s)
    (hg' : g' = if i.select.dataInValid then 1 else g + 1)
    (hpace : i.select.dataInValid = true → 41 < g) (hangle : 2 ≤ i.select.angleOffset.toNat) :
    Control g' (step s i) := by
  rcases h with h | ⟨n, h⟩
  · by_cases hopens : s.select.cs ≠ .enable ∧ s.select.ns i.select = .enable
    · obtain ⟨hg, hquiet, hlive⟩ := resting_opens h hpace hopens.1 hopens.2
      rw [hquiet, if_neg (by simp), hg] at hg'
      exact .inr ⟨0, hg' ▸ hlive⟩
    · refine .inl (resting_step h hg' hpace hangle ?_)
      tauto
  · by_cases hopen : s.select.ns i.select = .enable
    · cases hvalid : i.select.dataInValid with
      | false =>
          rw [hvalid, if_neg (by simp)] at hg'
          exact .inr ⟨n, hg' ▸ live_quiet h hvalid hopen⟩
      | true =>
          have hg := hpace hvalid
          by_cases hmore : n < targetNumber
          · rw [hvalid, if_pos rfl] at hg'
            exact .inr ⟨n + 1, hg' ▸ live_sample h hvalid hg hmore hopen⟩
          · have hfew := h.few
            exact .inl (live_done h hg' (.inr ⟨by omega, hvalid⟩))
    · exact .inl (live_done h hg' (.inl hopen))

theorem control_run {compare : CompareRegion.State} {rddata : Layer → BitVec 18} {input : ℕ → Input}
    (hpaced : Paced input) (t : ℕ) :
    Control (sinceSample input t) (run (State.reset compare rddata) input t) := by
  induction t with
  | zero => exact .inl (resting_reset compare rddata)
  | succ t ih => exact control_step ih rfl (hpaced.apart t) (hpaced.angle t).1

end SingleScan.AlarmPath
