import SingleScan.Lib.Since
import SingleScan.Lib.Tally
import SingleScan.DataSelect

/-!
# 811 distances a rotation

The counter of `data_select` starts anew at every zero mark, and the machine looks at the zero mark in
`IDLE` only. So a window has its 811 distances if and only if the next zero mark waits for the last of
them: one that comes before sends the counter back, and the window stays open for at least 812.
-/

namespace SingleScan.DataSelect

open Clocked

/-! ### The moves of the machine -/

theorem ns_of_idle {s : State} (i : Input) (hcs : s.cs = .idle) :
    s.ns i = if i.zeroFlag then .skip else .idle := by
  rw [State.ns, hcs]

/-- The window opens when one distance before the first is left to skip. -/
theorem ns_of_skip {s : State} (i : Input) (hcs : s.cs = .skip) :
    s.ns i = if s.offsetCnt.toNat + 1 = s.angleOffsetLock.toNat then .enable else .skip := by
  have hiff : s.offsetCnt.setWidth 32 = s.angleOffsetLock.setWidth 32 - 1 ↔
      s.offsetCnt.toNat + 1 = s.angleOffsetLock.toNat := by
    rw [← BitVec.toNat_inj, BitVec.toNat_sub, BitVec.toNat_setWidth, BitVec.toNat_setWidth]
    have hcnt := s.offsetCnt.isLt
    have hlock := s.angleOffsetLock.isLt
    simp
    omega
  rw [State.ns, hcs]
  simp only [hiff]

theorem ns_of_enable {s : State} (i : Input) (hcs : s.cs = .enable) :
    s.ns i = if s.angleOffsetLock.toNat + targetNumber - 1 ≤ s.offsetCnt.toNat then .idle
      else .enable := by
  rw [State.ns, hcs]

theorem ns_of_over {s : State} (i : Input) (hcs : s.cs = .over) :
    s.ns i = .idle := by
  rw [State.ns, hcs]

theorem dataOutValid_of_enabled {s : State} (i : Input)
    (hcs : s.cs = .enable) : s.dataOutValid i = i.dataInValid := by
  simp [State.dataOutValid, hcs]

theorem dataOutValid_of_closed {s : State} (i : Input)
    (hcs : s.cs ≠ .enable) : s.dataOutValid i = false := by
  simp [State.dataOutValid, hcs]

theorem cycleEnable_eq_true {s : State} : s.cycleEnable = true ↔ s.cs = .enable := by
  simp [State.cycleEnable]

/-! ### The registers over a run -/

/-- The state after `t` clocks, from the reset on. -/
def run (input : ℕ → Input) (t : ℕ) : State := trace step State.reset input t

theorem run_succ (input : ℕ → Input) (t : ℕ) : run input (t + 1) = step (run input t) (input t) := rfl

def zero (input : ℕ → Input) (t : ℕ) : Prop := (input t).zeroFlag = true

def sample (input : ℕ → Input) (t : ℕ) : Bool := (input t).dataInValid

/-- A distance goes on. -/
def delivered (input : ℕ → Input) (t : ℕ) : Bool := (run input t).dataOutValid (input t)

section Run

variable {input : ℕ → Input}

theorem offsetCnt_succ (t : ℕ) :
    (run input (t + 1)).offsetCnt.toNat =
      if (input t).zeroFlag then 0
      else if sample input t then ((run input t).offsetCnt.toNat + 1) % 2 ^ 16
      else (run input t).offsetCnt.toNat := by
  rw [run_succ, sample]
  simp only [step]
  split_ifs <;> simp

/-- Between two zero marks the counter counts the distances, and a zero mark only sets it back. -/
theorem offsetCnt_le {a t : ℕ} (hat : a ≤ t) :
    (run input t).offsetCnt.toNat ≤ (run input a).offsetCnt.toNat + tally (sample input) a t := by
  induction t, hat using Nat.le_induction with
  | base => exact Nat.le_add_right _ _
  | succ t hat ih =>
      rw [offsetCnt_succ]
      cases hsample : sample input t with
      | true =>
          rw [tally_succ_of_event hat hsample]
          have hmod := Nat.mod_le ((run input t).offsetCnt.toNat + 1) (2 ^ 16)
          split_ifs <;> omega
      | false =>
          rw [tally_succ_of_not hat hsample, if_neg Bool.false_ne_true]
          split_ifs <;> omega

theorem offsetCnt_eq {a t : ℕ} (hat : a ≤ t)
    (hsmall : (run input a).offsetCnt.toNat + tally (sample input) a t < 2 ^ 16)
    (hnone : ∀ e, a ≤ e → e < t → ¬zero input e) :
    (run input t).offsetCnt.toNat = (run input a).offsetCnt.toNat + tally (sample input) a t := by
  induction t, hat using Nat.le_induction with
  | base => rw [tally_self, Nat.add_zero]
  | succ t hat ih =>
      have hzero : (input t).zeroFlag = false :=
        Bool.eq_false_iff.2 (hnone t hat (Nat.lt_succ_self t))
      have hmono := tally_mono (sample input) a (Nat.le_add_right t 1)
      have hbefore := ih (by omega) fun e hae het => hnone e hae (Nat.lt_succ_of_lt het)
      rw [offsetCnt_succ, hzero, if_neg Bool.false_ne_true, hbefore]
      cases hsample : sample input t with
      | true =>
          rw [tally_succ_of_event hat hsample] at hsmall ⊢
          rw [if_pos rfl, Nat.mod_eq_of_lt (by omega)]
          omega
      | false => rw [tally_succ_of_not hat hsample, if_neg Bool.false_ne_true]

end Run

/-! ### The windows -/

/-- The distances come at least two clocks apart, and `angle_offset` is `a`. -/
structure Paced (input : ℕ → Input) (a : ℕ) : Prop where
  apart : ∀ t, sample input t = true → sample input (t + 1) = false
  angle : ∀ t, (input t).angleOffset.toNat = a
  range : 2 ≤ a ∧ a ≤ 240

/-- `cycle_enable` is high in the clocks `first`, …, `stop - 1`, and neither before nor behind. -/
structure Window (input : ℕ → Input) (first stop : ℕ) : Prop where
  lt : first < stop
  before : ∀ t, t + 1 = first → (run input t).cycleEnable = false
  during : ∀ t, first ≤ t → t < stop → (run input t).cycleEnable = true
  after : (run input stop).cycleEnable = false

/-- The number of a distance of clock `t` since the zero mark of clock `z`, the first one having 0. -/
def number (input : ℕ → Input) (z t : ℕ) : ℕ := tally (sample input) (z + 1) t

/-- A window delivers 811 distances, the ones numbered `a - 1`, …, `a + 809` since the zero mark. -/
def Delivers (input : ℕ → Input) (a z first stop : ℕ) : Prop :=
  tally (delivered input) first stop = targetNumber ∧
    ∀ t, z < t → sample input t = true →
      (first ≤ t ∧ t < stop ↔ a - 1 ≤ number input z t ∧ number input z t ≤ a + 809)

/-- The machine leaves `SKIP` at clock `f`: the distance `a - 2` since the zero mark `z` has come in the
clock before. -/
structure Opened (input : ℕ → Input) (a z f : ℕ) : Prop where
  last : Last (zero input) z (f - 1)
  lt : z < f
  full : (run input f).offsetCnt.toNat + 1 = a
  number_eq : number input z f + 1 = a
  quiet : sample input f = false

section Window

variable {input : ℕ → Input} {a first stop : ℕ}

/-- Outside of `IDLE` the offset of the settings is locked. -/
theorem Paced.lock (hpaced : Paced input a) {t : ℕ} (hcs : (run input t).cs ≠ .idle) :
    (run input t).angleOffsetLock.toNat = a := by
  induction t with
  | zero => exact absurd rfl hcs
  | succ t ih =>
      by_cases hidle : (run input t).cs = .idle
      · simp [run_succ, step, hidle, hpaced.angle]
      · simp [run_succ, step, hidle, ih hidle]

theorem cs_ne_over (input : ℕ → Input) (t : ℕ) : (run input t).cs ≠ .over := by
  cases t with
  | zero => exact fun h => Phase.noConfusion h
  | succ t =>
      change (run input t).ns (input t) ≠ .over
      cases hcs : (run input t).cs with
      | idle => rw [ns_of_idle _ hcs]; split <;> decide
      | skip => rw [ns_of_skip _ hcs]; split <;> decide
      | enable => rw [ns_of_enable _ hcs]; split <;> decide
      | «over» => rw [ns_of_over _ hcs]; decide

/-- A machine that skips has skipped since the last zero mark. -/
theorem Paced.skip_since (hpaced : Paced input a) {t : ℕ} (hcs : (run input t).cs = .skip) :
    ∃ z, Last (zero input) z (t - 1) ∧ z < t ∧ (run input t).offsetCnt.toNat = number input z t ∧
      number input z t < a ∧ (number input z t + 1 = a → sample input (t - 1) = true) := by
  induction t with
  | zero => cases hcs
  | succ t ih =>
      have hrange := hpaced.range
      have hns : (run input t).ns (input t) = .skip := hcs
      have hkeep : ∀ z, z < t → (run input t).cs = .skip →
          (run input t).offsetCnt.toNat = number input z t → number input z t < a →
          number input z t + 1 ≠ a := by
        intro z _ hskip hcnt _ hfull
        rw [ns_of_skip _ hskip, hpaced.lock (by simp [hskip]), hcnt, if_pos hfull] at hns
        cases hns
      by_cases hzero : (input t).zeroFlag = true
      · refine ⟨t, Last.now hzero, Nat.lt_succ_self t, ?_, ?_, ?_⟩
        · rw [offsetCnt_succ, if_pos hzero, number, tally_self]
        · rw [number, tally_self]
          omega
        · rw [number, tally_self]
          omega
      · cases hbefore : (run input t).cs with
        | idle =>
            rw [ns_of_idle _ hbefore, if_neg hzero] at hns
            cases hns
        | enable =>
            rw [ns_of_enable _ hbefore] at hns
            split at hns <;> cases hns
        | «over» => exact absurd hbefore (cs_ne_over input t)
        | skip =>
            obtain ⟨z, hlast, hlt, hcnt, hfew, -⟩ := ih hbefore
            have hnot := hkeep z hlt hbefore hcnt hfew
            have hlast' : Last (zero input) z t := by
              have h := hlast.next (by rwa [Nat.sub_add_cancel (Nat.one_le_of_lt hlt)])
              rwa [Nat.sub_add_cancel (Nat.one_le_of_lt hlt)] at h
            have hle : z + 1 ≤ t := hlt
            refine ⟨z, hlast', Nat.lt_succ_of_lt hlt, ?_⟩
            rw [offsetCnt_succ, if_neg hzero, hcnt, number, number]
            cases hsample : sample input t with
            | true =>
                rw [number] at hfew hnot
                rw [tally_succ_of_event hle hsample, if_pos rfl, Nat.mod_eq_of_lt (by omega)]
                exact ⟨rfl, by omega, fun _ => hsample⟩
            | false =>
                rw [tally_succ_of_not hle hsample, if_neg Bool.false_ne_true]
                exact ⟨rfl, hfew, fun hfull => absurd hfull hnot⟩

/-- **The opening.** -/
theorem Window.opening (hwindow : Window input first stop) (hpaced : Paced input a) :
    ∃ z f, first = f + 1 ∧ Opened input a z f := by
  obtain ⟨f, rfl⟩ : ∃ f, first = f + 1 := by
    cases first with
    | zero => exact absurd (hwindow.during 0 le_rfl hwindow.lt) Bool.false_ne_true
    | succ f => exact ⟨f, rfl⟩
  have hclosed : (run input f).cs ≠ .enable := by
    rw [ne_eq, ← cycleEnable_eq_true, hwindow.before f rfl]
    decide
  have hns : (run input f).ns (input f) = .enable :=
    cycleEnable_eq_true.1 (hwindow.during (f + 1) le_rfl hwindow.lt)
  have hskip : (run input f).cs = .skip := by
    cases hcs : (run input f).cs with
    | idle => rw [ns_of_idle _ hcs] at hns; split at hns <;> cases hns
    | skip => rfl
    | enable => exact absurd hcs hclosed
    | «over» => exact absurd hcs (cs_ne_over input f)
  obtain ⟨z, hlast, hlt, hcnt, -, hjust⟩ := hpaced.skip_since hskip
  have hfull : (run input f).offsetCnt.toNat + 1 = a := by
    rw [ns_of_skip _ hskip, hpaced.lock (by simp [hskip])] at hns
    by_contra hne
    rw [if_neg hne] at hns
    cases hns
  have hbefore := hpaced.apart _ (hjust (by omega))
  rw [Nat.sub_add_cancel (Nat.one_le_of_lt hlt)] at hbefore
  exact ⟨z, f, rfl, hlast, hlt, hfull, by omega, hbefore⟩

theorem Window.tally_delivered (hwindow : Window input first stop) {b c : ℕ} (hb : first ≤ b)
    (hc : c ≤ stop) : tally (delivered input) b c = tally (sample input) b c := by
  unfold tally
  congr 1
  refine Finset.filter_congr fun t ht => ?_
  rw [Finset.mem_Ico] at ht
  have hcs := cycleEnable_eq_true.1 (hwindow.during t (by omega) (by omega))
  rw [delivered, dataOutValid_of_enabled _ hcs, sample]

/-- **The closing.** A window stays open up to the first clock at which the counter has reached
`a + 810`. -/
theorem Window.closing (hwindow : Window input first stop) (hpaced : Paced input a) {t : ℕ}
    (hfirst : first ≤ t) (hstop : t < stop) :
    a + 810 ≤ (run input t).offsetCnt.toNat ↔ t + 1 = stop := by
  have hcs := cycleEnable_eq_true.1 (hwindow.during t hfirst hstop)
  have hns := ns_of_enable (input t) hcs
  rw [hpaced.lock (by simp [hcs]), targetNumber] at hns
  have hnext : (run input (t + 1)).cs = (run input t).ns (input t) := rfl
  constructor
  · intro hfull
    rw [if_pos (by omega)] at hns
    by_contra hne
    have hopen := cycleEnable_eq_true.1 (hwindow.during (t + 1) (by omega) (by omega))
    rw [hnext, hns] at hopen
    cases hopen
  · rintro rfl
    by_contra hfew
    rw [if_neg (by omega)] at hns
    have hopen := cycleEnable_eq_true.2 (hnext.trans hns)
    rw [hwindow.after] at hopen
    cases hopen

/-- A zero mark in the window makes it at least 812 distances long. -/
theorem Window.too_many (hwindow : Window input first stop) (hpaced : Paced input a) {t : ℕ}
    (hfirst : first ≤ t + 1) (hstop : t + 1 < stop) (hzero : zero input t) :
    targetNumber < tally (delivered input) first stop := by
  obtain ⟨last, rfl⟩ : ∃ last, stop = last + 1 := ⟨stop - 1, by omega⟩
  have hrange := hpaced.range
  have hfull := (hwindow.closing hpaced (t := last) (by omega) (Nat.lt_succ_self last)).2 rfl
  have hback : (run input (t + 1)).offsetCnt.toNat = 0 := by
    rw [offsetCnt_succ]
    exact if_pos hzero
  have hcounted := @offsetCnt_le input (t + 1) last (by omega)
  rw [hwindow.tally_delivered le_rfl le_rfl, targetNumber,
    ← tally_add _ hfirst (Nat.le_of_lt hstop)]
  have hmono := tally_mono (sample input) (t + 1) (Nat.le_add_right last 1)
  omega

section Opened

variable {z f : ℕ}

theorem Opened.number_first (hopened : Opened input a z f) : number input z (f + 1) + 1 = a := by
  have hle : z + 1 ≤ f := hopened.lt
  rw [number, tally_succ_of_not hle hopened.quiet]
  exact hopened.number_eq

/-- Up to the next zero mark the counter has the number of the distance. -/
theorem Opened.counted (hopened : Opened input a z f) (hpaced : Paced input a)
    (hwindow : Window input (f + 1) stop) {t : ℕ} (hft : f + 1 ≤ t) (hts : t < stop)
    (hnone : ∀ e, f ≤ e → e < t → ¬zero input e) :
    (run input t).offsetCnt.toNat = number input z t ∧ number input z t ≤ a + 810 := by
  have hrange := hpaced.range
  have hfirst := hopened.number_first
  have hcnt := hopened.full
  have hcounts : ∀ t, f + 1 ≤ t → (∀ e, f ≤ e → e < t → ¬zero input e) →
      number input z t ≤ a + 810 → (run input t).offsetCnt.toNat = number input z t := by
    intro t hft hnone hfew
    have hsplit : number input z f + tally (sample input) f t = number input z t :=
      tally_add _ hopened.lt (Nat.le_of_succ_le hft)
    have hnumber := hopened.number_eq
    rw [offsetCnt_eq (Nat.le_of_succ_le hft) (by omega) hnone]
    omega
  induction t, hft using Nat.le_induction with
  | base => exact ⟨hcounts _ le_rfl hnone (by omega), by omega⟩
  | succ t hft ih =>
      obtain ⟨heq, hfew⟩ := ih (Nat.lt_of_succ_lt hts) fun e hfe het =>
        hnone e hfe (Nat.lt_succ_of_lt het)
      have hopen : ¬a + 810 ≤ (run input t).offsetCnt.toNat := fun hfull =>
        absurd ((hwindow.closing hpaced hft (Nat.lt_of_succ_lt hts)).1 hfull) (Nat.ne_of_lt hts)
      have hle : z + 1 ≤ t := hopened.lt.trans (Nat.lt_of_succ_le hft)
      have hnext : number input z (t + 1) ≤ number input z t + 1 := by
        unfold number
        cases hsample : sample input t with
        | true => rw [tally_succ_of_event hle hsample]
        | false => rw [tally_succ_of_not hle hsample]; exact Nat.le_succ _
      exact ⟨hcounts _ (Nat.le_succ_of_le hft) hnone (by omega), by omega⟩

/-- Without a zero mark the window ends with the distance `a + 809`. -/
theorem Opened.number_stop (hopened : Opened input a z f) (hpaced : Paced input a)
    (hwindow : Window input (f + 1) stop) (hnone : ∀ e, f ≤ e → e + 1 < stop → ¬zero input e) :
    number input z (stop - 1) = a + 810 ∧ number input z stop = a + 810 := by
  have hfirst := hopened.number_first
  obtain ⟨last, rfl⟩ : ∃ last, stop = last + 1 := ⟨stop - 1, by have := hwindow.lt; omega⟩
  have hlast : f + 1 ≤ last := Nat.le_of_lt_succ hwindow.lt
  have hnoneLast : ∀ e, f ≤ e → e < last → ¬zero input e :=
    fun e hfe hel => hnone e hfe (Nat.succ_lt_succ hel)
  obtain ⟨heq, hfew⟩ := hopened.counted hpaced hwindow hlast (Nat.lt_succ_self last) hnoneLast
  have hfull := (hwindow.closing hpaced hlast (Nat.lt_succ_self last)).2 rfl
  have hnumber : number input z last = a + 810 := by omega
  refine ⟨hnumber, ?_⟩
  -- The distance that fills the counter is that of the clock before, so there is none now.
  obtain ⟨before, rfl⟩ : ∃ before, last = before + 1 :=
    ⟨last - 1, by omega⟩
  have hle : z + 1 ≤ before + 1 := hopened.lt.trans (Nat.lt_of_succ_le hlast)
  have hinside : f + 1 ≤ before := by
    by_contra hnot
    have heqf : before + 1 = f + 1 := by omega
    rw [heqf] at hnumber
    omega
  have hopen : ¬a + 810 ≤ number input z before := by
    intro hfull'
    obtain ⟨heq', -⟩ := hopened.counted hpaced hwindow hinside (by omega)
      fun e hfe heb => hnone e hfe (by omega)
    have hends := (hwindow.closing hpaced hinside (by omega)).1 (heq'.symm ▸ hfull')
    omega
  have hle' : z + 1 ≤ before := hopened.lt.trans (Nat.lt_of_succ_le hinside)
  have hsample : sample input before = true := by
    by_contra hno
    rw [number, tally_succ_of_not hle' (Bool.eq_false_iff.2 hno)] at hnumber
    exact hopen hnumber.ge
  rw [number, tally_succ_of_not hle (hpaced.apart before hsample)]
  exact hnumber

theorem Opened.delivers (hopened : Opened input a z f) (hpaced : Paced input a)
    (hwindow : Window input (f + 1) stop) (hnone : ∀ e, f ≤ e → e + 1 < stop → ¬zero input e) :
    Delivers input a z (f + 1) stop := by
  have hfirst := hopened.number_first
  have hstop := (hopened.number_stop hpaced hwindow hnone).2
  have hmono : ∀ {t t'}, t ≤ t' → number input z t ≤ number input z t' :=
    fun h => tally_mono (sample input) (z + 1) h
  constructor
  · rw [hwindow.tally_delivered le_rfl le_rfl, targetNumber]
    have hle : z + 1 ≤ f + 1 := Nat.succ_le_succ hopened.lt.le
    have hsplit : number input z (f + 1) + tally (sample input) (f + 1) stop = number input z stop :=
      tally_add _ hle hwindow.lt.le
    omega
  · intro t hzt hsample
    have hnext : number input z (t + 1) = number input z t + 1 := tally_succ_of_event hzt hsample
    constructor
    · rintro ⟨hft, hts⟩
      have hle : t + 1 ≤ stop := hts
      have hlow := hmono hft
      have hhigh := hmono hle
      omega
    · rintro ⟨hlow, hhigh⟩
      constructor
      · by_contra hearly
        have hle : t + 1 ≤ f + 1 := Nat.lt_of_not_le hearly
        have hfew := hmono hle
        omega
      · by_contra hlate
        have hmany := hmono (Nat.le_of_not_lt hlate)
        omega

/-- The next zero mark comes behind the last distance exactly if none comes into the window. -/
theorem Opened.waits_iff (hopened : Opened input a z f) (hpaced : Paced input a)
    (hwindow : Window input (f + 1) stop) :
    (∀ t, z < t → zero input t → a + 810 ≤ number input z t) ↔
      ∀ e, f ≤ e → e + 1 < stop → ¬zero input e := by
  have hfirst := hopened.number_first
  have hnumber := hopened.number_eq
  have hmono : ∀ {t t'}, t ≤ t' → number input z t ≤ number input z t' :=
    fun h => tally_mono (sample input) (z + 1) h
  constructor
  · intro hwaits e
    induction e using Nat.strong_induction_on with
    | h e ih =>
        intro hfe hes hzero
        have hfull := hwaits e (hopened.lt.trans_le hfe) hzero
        rcases Nat.eq_or_lt_of_le hfe with rfl | hlt
        · omega
        · obtain ⟨heq, -⟩ := hopened.counted hpaced hwindow hlt (Nat.lt_of_succ_lt hes)
            fun e' hfe' he' => ih e' he' hfe' (by omega)
          have hends := (hwindow.closing hpaced hlt (Nat.lt_of_succ_lt hes)).1 (heq.symm ▸ hfull)
          omega
  · intro hnone t hzt hzero
    have hlate : stop - 1 ≤ t := by
      by_contra hearly
      by_cases hft : f ≤ t
      · exact hnone t hft (by omega) hzero
      · exact hopened.last.none t hzt (by omega) hzero
    rw [← (hopened.number_stop hpaced hwindow hnone).1]
    exact hmono hlate

end Opened

/-- **811 distances.** A window delivers its distances if and only if the next zero mark comes behind the
last of them. -/
theorem delivers_iff (hwindow : Window input first stop) (hpaced : Paced input a) :
    ∃ z, Last (zero input) z (first - 2) ∧
      (Delivers input a z first stop ↔
        ∀ t, z < t → zero input t → a + 810 ≤ number input z t) := by
  obtain ⟨z, f, rfl, hopened⟩ := hwindow.opening hpaced
  refine ⟨z, hopened.last, ?_⟩
  rw [hopened.waits_iff hpaced hwindow]
  constructor
  · intro hdelivers e hfe hes hzero
    have hmany := hwindow.too_many hpaced (Nat.succ_le_succ hfe) hes hzero
    exact absurd hdelivers.1 (Nat.ne_of_gt hmany)
  · exact hopened.delivers hpaced hwindow

end Window

/-! ### A rotation that is over too early -/

/-- A zero mark at clock 0 and another one at clock `n`, and a distance in every other clock. -/
def early (n t : ℕ) : Input where
  zeroFlag := t == 0 || t == n
  angleOffset := 2
  minDisplayDistance := 0
  dataInValid := t % 2 == 1
  dataIn := 1000

theorem early_paced (n : ℕ) : Paced (early n) 2 where
  apart t h := by
    simp only [sample, early, beq_iff_eq, beq_eq_false_iff_ne] at h ⊢
    omega
  angle _ := rfl
  range := by decide

/-- The window of such a rotation, from clock 4 on. -/
theorem early_enabled {n o : ℕ} (hn : n < 4)
    (hcs : (run (early n) 4).cs = .enable) (hcnt : (run (early n) 4).offsetCnt.toNat = o) {t : ℕ}
    (h₄ : 4 ≤ t) (ht : o + (t - 4) / 2 ≤ 812) (hodd : o + (t - 5) / 2 < 812) :
    (run (early n) t).cs = .enable ∧ (run (early n) t).offsetCnt.toNat = o + (t - 4) / 2 := by
  induction t, h₄ using Nat.le_induction with
  | base => exact ⟨hcs, hcnt⟩
  | succ t h₄ ih =>
      obtain ⟨henable, hoffset⟩ := ih (by omega) (by omega)
      have hlock := (early_paced n).lock (t := t) (by simp [henable])
      have hnext : (run (early n) (t + 1)).cs = (run (early n) t).ns (early n t) := rfl
      have hzero : ¬(early n t).zeroFlag = true := by
        simp only [early, Bool.or_eq_true, beq_iff_eq]
        omega
      refine ⟨?_, ?_⟩
      · rw [hnext, ns_of_enable _ henable, hlock, hoffset, targetNumber, if_neg (by omega)]
      · rw [offsetCnt_succ, if_neg hzero, hoffset]
        by_cases hodd : t % 2 = 1
        · have hsample : sample (early n) t = true := by simp [sample, early, hodd]
          rw [if_pos hsample, Nat.mod_eq_of_lt (by omega)]
          omega
        · have hsample : ¬sample (early n) t = true := by simp [sample, early, hodd]
          rw [if_neg hsample]
          omega

theorem early_window {n o : ℕ} (hn : n < 4) (ho : o ≤ 2)
    (hcs : (run (early n) 4).cs = .enable) (hcnt : (run (early n) 4).offsetCnt.toNat = o)
    (hfirst : (run (early n) 3).cs = .enable) (hbefore : (run (early n) 2).cs = .skip) :
    Window (early n) 3 (1629 - 2 * o) where
  lt := by omega
  before t ht := by
    obtain rfl : t = 2 := by omega
    simp [State.cycleEnable, hbefore]
  during t hle hlt := by
    rw [cycleEnable_eq_true]
    rcases Nat.eq_or_lt_of_le hle with rfl | h₄
    · exact hfirst
    · exact (early_enabled hn hcs hcnt h₄ (by omega) (by omega)).1
  after := by
    obtain ⟨t, ht⟩ : ∃ t, 1629 - 2 * o = t + 1 := ⟨1628 - 2 * o, by omega⟩
    obtain ⟨henable, hoffset⟩ :=
      early_enabled hn hcs hcnt (t := t) (by omega) (by omega) (by omega)
    have hlock := (early_paced n).lock (t := t) (by simp [henable])
    have hnext : (run (early n) (t + 1)).cs = .idle := by
      change (run (early n) t).ns (early n t) = .idle
      rw [ns_of_enable _ henable, hlock, hoffset, targetNumber, if_pos (by omega)]
    rw [ht]
    simp [State.cycleEnable, hnext]

theorem window_whole : Window (early 0) 3 1625 :=
  early_window (o := 2) (by decide) (by decide) (by decide) (by decide) (by decide) (by decide)

theorem window_early : Window (early 3) 3 1629 :=
  early_window (o := 0) (by decide) (by decide) (by decide) (by decide) (by decide) (by decide)

theorem delivers_whole :
    Window (early 0) 3 1625 ∧ Paced (early 0) 2 ∧
      ∃ z, Last (zero (early 0)) z 1 ∧
        (Delivers (early 0) 2 z 3 1625 ↔
          ∀ t, z < t → zero (early 0) t → 2 + 810 ≤ number (early 0) z t) :=
  ⟨window_whole, early_paced 0, delivers_iff window_whole (early_paced 0)⟩

/-- The zero mark at clock 3 comes with the first distance of the window, which delivers too many. -/
theorem not_delivers_early :
    Window (early 3) 3 1629 ∧ Paced (early 3) 2 ∧ Last (zero (early 3)) 0 1 ∧
      ¬Delivers (early 3) 2 0 3 1629 := by
  refine ⟨window_early, early_paced 3, ⟨rfl, by decide, ?_⟩, ?_⟩
  · intro e hpos hle
    obtain rfl : e = 1 := by omega
    exact Bool.false_ne_true
  · intro hdelivers
    have hmany := window_early.too_many (early_paced 3) (t := 3) (by decide) (by decide) rfl
    exact absurd hdelivers.1 (Nat.ne_of_gt hmany)

end SingleScan.DataSelect
