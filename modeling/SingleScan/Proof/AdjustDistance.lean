import Mathlib.Data.Int.ConditionallyCompleteOrder
import Mathlib.Order.ConditionallyCompleteLattice.Basic
import SingleScan.AdjustDistance
import SingleScan.Lib.Trace

/-!
# The correction for the width of a pulse

An accepted pulse goes through the five states of the machine and comes out six clocks later, whatever
the inflections are. For inflections in order, what is taken from the distance is the value of a
piecewise linear function, but the subtraction is done in 16 bits.
-/

namespace SingleScan.AdjustDistance

open Clocked

/-! ### One pulse through the machine -/

/-- Some condition is met for every width, in whatever order the inflections are. -/
theorem exists_segment (c : Settings) (x : BitVec 12) : ∃ segment, c.segment x = some segment := by
  unfold Settings.segment
  split_ifs
  · exact ⟨_, rfl⟩
  · exact ⟨_, rfl⟩
  · exact ⟨_, rfl⟩
  · exact ⟨_, rfl⟩
  · exact ⟨_, rfl⟩
  · omega

variable {s : State} {i : Input}

theorem lengthStep_state (s : State) (c : Settings) :
    (lengthStep s c).state = 2 ∧ (lengthStep s c).adEn = s.adEn ∧
      (lengthStep s c).timePluse2 = s.timePluse1 := by
  obtain ⟨segment, hsegment⟩ := exists_segment c s.timePluse1
  cases segment <;> simp [lengthStep, hsegment]

theorem distanceStep_state (s : State) (i : Input) :
    (distanceStep s i).state = 5 ∧ (distanceStep s i).adEn = s.adEn ∧
      (distanceStep s i).timePluse3 = s.timePluse2 := by
  obtain ⟨segment, hsegment⟩ := exists_segment i.settings s.timePluse2
  cases segment <;> simp [distanceStep, hsegment]

/-- The machine takes a pulse in. -/
def accepts (s : State) (i : Input) : Bool := s.state == 0 && i.timeEn

theorem step_accept (h : accepts s i = true) :
    (step s i).state = 1 ∧ (step s i).adEn = false ∧
      (step s i).timePluse1 = i.timePluse <<< 2 := by
  simp only [accepts, Bool.and_eq_true, beq_iff_eq] at h
  simp [step, fsmStep, h.1, h.2]

theorem step_idle (h : s.state = 0) (hen : i.timeEn = false) :
    (step s i).state = 0 ∧ (step s i).adEn = false := by
  simp [step, fsmStep, h, hen]

theorem step_length (h : s.state = 1) :
    (step s i).state = 2 ∧ (step s i).adEn = s.adEn ∧
      (step s i).timePluse2 = s.timePluse1 := by
  simp [step, fsmStep, h, lengthStep_state]

theorem step_product (h : s.state = 2) :
    (step s i).state = 3 ∧ (step s i).adEn = s.adEn ∧ (step s i).timePluse2 = s.timePluse2 := by
  simp [step, fsmStep, h]

theorem step_sum (h : s.state = 3) :
    (step s i).state = 4 ∧ (step s i).adEn = s.adEn ∧ (step s i).timePluse2 = s.timePluse2 := by
  simp [step, fsmStep, h]

theorem step_distance (h : s.state = 4) :
    (step s i).state = 5 ∧ (step s i).adEn = s.adEn ∧ (step s i).timePluse3 = s.timePluse2 := by
  simp [step, fsmStep, h, distanceStep_state]

theorem step_done (h : s.state = 5) :
    (step s i).state = 0 ∧ (step s i).adEn = true ∧
      (step s i).timePluseA = (s.timePluse3.extractLsb' 2 10).setWidth 12 ∧
      (step s i).adDistance = s.adDistance := by
  simp [step, fsmStep, h]

/-- What holds at every clock: the machine is in one of its six states, and the enable is only up in
the first. -/
structure Sound (s : State) : Prop where
  state : s.state = 0 ∨ s.state = 1 ∨ s.state = 2 ∨ s.state = 3 ∨ s.state = 4 ∨ s.state = 5
  adEn : s.adEn = true → s.state = 0

theorem sound_reset (s : State) : Sound s.reset := ⟨.inl rfl, fun _ => rfl⟩

theorem sound_step (h : Sound s) (i : Input) : Sound (step s i) := by
  have hlow (hne : s.state ≠ 0) : s.adEn = false :=
    Bool.eq_false_iff.mpr fun hen => hne (h.adEn hen)
  rcases h.state with hs | hs | hs | hs | hs | hs
  · cases hen : i.timeEn with
    | false =>
        obtain ⟨hstate, -⟩ := step_idle hs hen
        exact ⟨.inl hstate, fun _ => hstate⟩
    | true =>
        obtain ⟨hstate, hquiet, -⟩ := step_accept (s := s) (i := i) (by simp [accepts, hs, hen])
        exact ⟨by simp [hstate], by simp [hquiet]⟩
  · obtain ⟨hstate, hkeep, -⟩ := step_length (i := i) hs
    exact ⟨by simp [hstate], by simp [hkeep, hlow, hs]⟩
  · obtain ⟨hstate, hkeep, -⟩ := step_product (i := i) hs
    exact ⟨by simp [hstate], by simp [hkeep, hlow, hs]⟩
  · obtain ⟨hstate, hkeep, -⟩ := step_sum (i := i) hs
    exact ⟨by simp [hstate], by simp [hkeep, hlow, hs]⟩
  · obtain ⟨hstate, hkeep, -⟩ := step_distance (i := i) hs
    exact ⟨by simp [hstate], by simp [hkeep, hlow, hs]⟩
  · obtain ⟨hstate, -⟩ := step_done (i := i) hs
    exact ⟨.inl hstate, fun _ => hstate⟩

theorem sound_trace (s : State) (input : ℕ → Input) (t : ℕ) :
    Sound (trace step s.reset input t) :=
  trace_invariant Sound (sound_reset s) (fun _ t h => sound_step h (input t)) t

theorem step_iff (h : Sound s) :
    ((step s i).state = 1 ↔ accepts s i = true) ∧ ((step s i).state = 2 ↔ s.state = 1) ∧
      ((step s i).state = 3 ↔ s.state = 2) ∧ ((step s i).state = 4 ↔ s.state = 3) ∧
      ((step s i).state = 5 ↔ s.state = 4) ∧ ((step s i).adEn = true ↔ s.state = 5) := by
  have hlow (hne : s.state ≠ 0) : s.adEn = false :=
    Bool.eq_false_iff.mpr fun hen => hne (h.adEn hen)
  rcases h.state with hs | hs | hs | hs | hs | hs
  · cases hen : i.timeEn with
    | false => simp [accepts, hs, hen, step_idle hs hen]
    | true =>
        have haccepts : accepts s i = true := by simp [accepts, hs, hen]
        simp [haccepts, hs, step_accept haccepts]
  · simp [accepts, hs, step_length hs, hlow]
  · simp [accepts, hs, step_product hs, hlow]
  · simp [accepts, hs, step_sum hs, hlow]
  · simp [accepts, hs, step_distance hs, hlow]
  · simp [accepts, hs, step_done hs]

theorem step_le (h : Sound s) : (step s i).state.toNat ≤ s.state.toNat + 1 := by
  rcases h.state with hs | hs | hs | hs | hs | hs
  · cases hen : i.timeEn with
    | false => simp [step_idle hs hen]
    | true => simp [hs, step_accept (s := s) (i := i) (by simp [accepts, hs, hen])]
  · simp [hs, step_length hs]
  · simp [hs, step_product hs]
  · simp [hs, step_sum hs]
  · simp [hs, step_distance hs]
  · simp [step_done hs]

section Run

variable (s : State) (input : ℕ → Input)

/-- A pulse that is taken in is `k` clocks later in state `k`. -/
theorem state_iff_accepts (t : ℕ) :
    ((trace step s.reset input (t + 1)).state = 1 ↔
        accepts (trace step s.reset input t) (input t) = true) ∧
      ((trace step s.reset input (t + 2)).state = 2 ↔
        accepts (trace step s.reset input t) (input t) = true) ∧
      ((trace step s.reset input (t + 3)).state = 3 ↔
        accepts (trace step s.reset input t) (input t) = true) ∧
      ((trace step s.reset input (t + 4)).state = 4 ↔
        accepts (trace step s.reset input t) (input t) = true) ∧
      ((trace step s.reset input (t + 5)).state = 5 ↔
        accepts (trace step s.reset input t) (input t) = true) := by
  have hone := (step_iff (i := input t) (sound_trace s input t)).1
  have htwo := (step_iff (i := input (t + 1)) (sound_trace s input (t + 1))).2.1
  have hthree := (step_iff (i := input (t + 2)) (sound_trace s input (t + 2))).2.2.1
  have hfour := (step_iff (i := input (t + 3)) (sound_trace s input (t + 3))).2.2.2.1
  have hfive := (step_iff (i := input (t + 4)) (sound_trace s input (t + 4))).2.2.2.2.1
  exact ⟨hone, htwo.trans hone, hthree.trans (htwo.trans hone),
    hfour.trans (hthree.trans (htwo.trans hone)),
    hfive.trans (hfour.trans (hthree.trans (htwo.trans hone)))⟩

/-- The machine does not get ahead of the clocks since the reset. -/
theorem state_le (t : ℕ) : (trace step s.reset input t).state.toNat ≤ t := by
  induction t with
  | zero => exact Nat.le_refl 0
  | succ t ih => exact (step_le (sound_trace s input t)).trans (Nat.succ_le_succ ih)

/-- **One enable for each pulse taken in.** It comes six clocks after it. -/
theorem adEn_iff (c : ℕ) : (trace step s.reset input c).adEn = true ↔
    ∃ t, c = t + 6 ∧ accepts (trace step s.reset input t) (input t) = true := by
  rcases Nat.lt_or_ge c 6 with hearly | hlate
  · refine iff_of_false (fun hen => ?_) (fun ⟨t, hc, _⟩ => by omega)
    cases c with
    | zero => exact Bool.false_ne_true hen
    | succ c =>
        have hfive := (step_iff (i := input c) (sound_trace s input c)).2.2.2.2.2.mp hen
        have hle := state_le s input c
        rw [hfive] at hle
        have : (5 : BitVec 3).toNat = 5 := rfl
        omega
  · obtain ⟨t, rfl⟩ : ∃ t, c = t + 6 := ⟨c - 6, by omega⟩
    have hen : (trace step s.reset input (t + 6)).adEn = true ↔
        (trace step s.reset input (t + 5)).state = 5 :=
      (step_iff (i := input (t + 5)) (sound_trace s input (t + 5))).2.2.2.2.2
    rw [hen, (state_iff_accepts s input t).2.2.2.2]
    constructor
    · exact fun h => ⟨t, rfl, h⟩
    · rintro ⟨t', ht, h⟩
      obtain rfl : t = t' := by omega
      exact h

/-- A machine that is busy has taken a pulse in not long ago. -/
theorem exists_accepts {c : ℕ} (hbusy : (trace step s.reset input c).state ≠ 0) :
    ∃ t, t < c ∧ c ≤ t + 5 ∧ accepts (trace step s.reset input t) (input t) = true := by
  have hback (k : ℕ) (hk : (trace step s.reset input c).state.toNat = k) : ∃ t, c = t + k :=
    Nat.exists_eq_add_of_le' (hk ▸ state_le s input c)
  rcases (sound_trace s input c).state with hs | hs | hs | hs | hs | hs
  · exact absurd hs hbusy
  · obtain ⟨t, rfl⟩ := hback 1 (by rw [hs]; rfl)
    exact ⟨t, by omega, by omega, (state_iff_accepts s input t).1.mp hs⟩
  · obtain ⟨t, rfl⟩ := hback 2 (by rw [hs]; rfl)
    exact ⟨t, by omega, by omega, (state_iff_accepts s input t).2.1.mp hs⟩
  · obtain ⟨t, rfl⟩ := hback 3 (by rw [hs]; rfl)
    exact ⟨t, by omega, by omega, (state_iff_accepts s input t).2.2.1.mp hs⟩
  · obtain ⟨t, rfl⟩ := hback 4 (by rw [hs]; rfl)
    exact ⟨t, by omega, by omega, (state_iff_accepts s input t).2.2.2.1.mp hs⟩
  · obtain ⟨t, rfl⟩ := hback 5 (by rw [hs]; rfl)
    exact ⟨t, by omega, by omega, (state_iff_accepts s input t).2.2.2.2.mp hs⟩

/-- Between two pulses that are taken in there are six clocks. -/
theorem accepts_apart {t t' : ℕ} (h : accepts (trace step s.reset input t) (input t) = true)
    (h' : accepts (trace step s.reset input t') (input t') = true) (hlt : t < t') : t + 6 ≤ t' := by
  have hzero : (trace step s.reset input t').state = 0 := by
    simp only [accepts, Bool.and_eq_true, beq_iff_eq] at h'
    exact h'.1
  obtain ⟨h1, h2, h3, h4, h5⟩ := state_iff_accepts s input t
  by_contra hnear
  have hcases : t' = t + 1 ∨ t' = t + 2 ∨ t' = t + 3 ∨ t' = t + 4 ∨ t' = t + 5 := by omega
  rcases hcases with rfl | rfl | rfl | rfl | rfl
  · exact absurd ((h1.mpr h).symm.trans hzero) (by decide)
  · exact absurd ((h2.mpr h).symm.trans hzero) (by decide)
  · exact absurd ((h3.mpr h).symm.trans hzero) (by decide)
  · exact absurd ((h4.mpr h).symm.trans hzero) (by decide)
  · exact absurd ((h5.mpr h).symm.trans hzero) (by decide)

/-- The result stands still for at least one clock. -/
theorem adDistance_of_idle {s : State} {i : Input} (h : s.state = 0) :
    (step s i).adDistance = s.adDistance := by
  cases hen : i.timeEn <;> simp [step, fsmStep, h, hen]

end Run

/-! ### The distance that comes out -/

/-- The lengths for the scaled width `x`. The registers of the other segments hold something older. -/
structure Lengths (c : Settings) (x : BitVec 12) (s : State) : Prop where
  time21 : s.time21 = c.pointCnt2 - c.pointCnt1
  time32 : s.time32 = c.pointCnt3 - c.pointCnt2
  time43 : s.time43 = c.pointCnt4 - c.pointCnt3
  below1 : c.segment x = some .below1 → s.time1 = under x c.pointCnt1
  upTo2 : c.segment x = some .upTo2 → s.time2 = beyond x c.pointCnt1
  upTo3 : c.segment x = some .upTo3 → s.time3 = beyond x c.pointCnt2
  upTo4 : c.segment x = some .upTo4 → s.time4 = beyond x c.pointCnt3
  above4 : c.segment x = some .above4 → s.time5 = beyond x c.pointCnt4

/-- The products of these lengths. -/
structure Products (c : Settings) (x : BitVec 12) (s : State) : Prop where
  adDistance21 : s.adDistance21 = mulP (c.pointCnt2 - c.pointCnt1) c.correctCntB
  adDistance32 : s.adDistance32 = mulP (c.pointCnt3 - c.pointCnt2) c.correctCntN
  adDistance43 : s.adDistance43 = mulP (c.pointCnt4 - c.pointCnt3) c.correctCnt4
  below1 : c.segment x = some .below1 →
    s.adDistance1 = mulP (under x c.pointCnt1) c.correctCntM
  upTo2 : c.segment x = some .upTo2 → s.adDistance2 = mulP (beyond x c.pointCnt1) c.correctCntB
  upTo3 : c.segment x = some .upTo3 → s.adDistance3 = mulP (beyond x c.pointCnt2) c.correctCntN
  upTo4 : c.segment x = some .upTo4 → s.adDistance4 = mulP (beyond x c.pointCnt3) c.correctCnt4
  above4 : c.segment x = some .above4 → s.adDistance5 = mulP (beyond x c.pointCnt4) c.correctCnt5

/-- The product of the length between two inflections and the slope there, over 16. -/
def Settings.rise21 (c : Settings) : BitVec 18 :=
  high (mulP (c.pointCnt2 - c.pointCnt1) c.correctCntB)

def Settings.rise32 (c : Settings) : BitVec 18 :=
  high (mulP (c.pointCnt3 - c.pointCnt2) c.correctCntN)

def Settings.rise43 (c : Settings) : BitVec 18 :=
  high (mulP (c.pointCnt4 - c.pointCnt3) c.correctCnt4)

/-- What becomes of the distance of a pulse of this width. -/
def adjusted (c : Settings) (timePluse : BitVec 12) (midDistance : BitVec 18) : BitVec 16 :=
  let x := timePluse <<< 2
  match c.segment x with
  | some .below1 =>
      (midDistance + high (mulP (under x c.pointCnt1) c.correctCntM)).setWidth 16
  | some .upTo2 => (midDistance - high (mulP (beyond x c.pointCnt1) c.correctCntB)).setWidth 16
  | some .upTo3 =>
      (midDistance - (c.rise21 + high (mulP (beyond x c.pointCnt2) c.correctCntN))).setWidth 16
  | some .upTo4 =>
      (midDistance - (high (mulP (beyond x c.pointCnt3) c.correctCnt4) +
        (c.rise21 + c.rise32))).setWidth 16
  | some .above4 =>
      (midDistance - (c.rise21 + c.rise32 +
        (high (mulP (beyond x c.pointCnt4) c.correctCnt5) + c.rise43))).setWidth 16
  | none => 0

theorem Lengths.keep {c : Settings} {x : BitVec 12} (hlengths : Lengths c x s) (h : s.state = 2) :
    Lengths c x (step s i) := by
  obtain ⟨h21, h32, h43, h1, h2, h3, h4, h5⟩ := hlengths
  constructor <;> simp [step, fsmStep, h] <;> assumption

section Value

variable {c : Settings} {x : BitVec 12} (hc : i.settings = c)

include hc

theorem lengths_step (h : s.state = 1) (hx : s.timePluse1 = x) : Lengths c x (step s i) := by
  obtain ⟨segment, hsegment⟩ := exists_segment c x
  cases segment <;> constructor <;> simp [step, fsmStep, lengthStep, h, hc, hx, hsegment]

theorem Lengths.products (h : Lengths c x s) : Products c x (step s i) where
  adDistance21 := by simp only [step, hc, h.time21]
  adDistance32 := by simp only [step, hc, h.time32]
  adDistance43 := by simp only [step, hc, h.time43]
  below1 hx := by simp only [step, hc, h.below1 hx]
  upTo2 hx := by simp only [step, hc, h.upTo2 hx]
  upTo3 hx := by simp only [step, hc, h.upTo3 hx]
  upTo4 hx := by simp only [step, hc, h.upTo4 hx]
  above4 hx := by simp only [step, hc, h.above4 hx]

theorem adjusted_step {w : BitVec 12} (h : s.state = 3) (hwidth : s.timePluse2 = w <<< 2)
    (hlengths : Lengths c (w <<< 2) s) (hproducts : Products c (w <<< 2) s) {j : Input}
    (hj : j.settings = c) :
    (step (step s i) j).adDistance = adjusted c w j.midDistance := by
  obtain ⟨hstate, -, hkeep⟩ := step_sum (i := i) h
  have hagain := hlengths.products hc
  have hsums : (step s i).adDistanceM = high s.adDistance21 + high s.adDistance3 ∧
      (step s i).adDistanceM2 = high s.adDistance21 + high s.adDistance32 ∧
      (step s i).adDistanceM3 = high s.adDistance5 + high s.adDistance43 := by
    simp [step, fsmStep, h]
  obtain ⟨hm, hm2, hm3⟩ := hsums
  have hdistance : (step (step s i) j).adDistance = (distanceStep (step s i) j).adDistance := by
    generalize step s i = s' at hstate
    simp [step, fsmStep, hstate]
  obtain ⟨segment, hsegment⟩ := exists_segment c (w <<< 2)
  rw [hdistance, distanceStep, hj, hkeep, hwidth, hsegment, adjusted, hsegment]
  cases segment with
  | below1 => simp only [hagain.below1 hsegment]
  | upTo2 => simp only [hagain.upTo2 hsegment]
  | upTo3 =>
      simp only [hm, hproducts.adDistance21, hproducts.upTo3 hsegment, Settings.rise21]
  | upTo4 =>
      simp only [hm2, hagain.upTo4 hsegment, hproducts.adDistance21, hproducts.adDistance32,
        Settings.rise21, Settings.rise32]
  | above4 =>
      simp only [hm2, hm3, hproducts.above4 hsegment, hproducts.adDistance21,
        hproducts.adDistance32, hproducts.adDistance43, Settings.rise21, Settings.rise32,
        Settings.rise43]

end Value

/-- **The value of a pulse taken in.** -/
theorem adDistance_of_accepts (s : State) {input : ℕ → Input} {t : ℕ}
    (h : accepts (trace step s.reset input t) (input t) = true) {c : Settings}
    (hc : ∀ k, 1 ≤ k → k ≤ 4 → (input (t + k)).settings = c) :
    (trace step s.reset input (t + 6)).adDistance =
        adjusted c (input t).timePluse (input (t + 4)).midDistance ∧
      (trace step s.reset input (t + 6)).timePluseA =
        (((input t).timePluse <<< 2).extractLsb' 2 10).setWidth 12 := by
  obtain ⟨h1, -, hwidth1⟩ := step_accept h
  have hlengths2 := lengths_step (hc 1 (by decide) (by decide)) h1 hwidth1
  obtain ⟨h2, -, hwidth2⟩ := step_length (i := input (t + 1)) h1
  have hlengths3 := hlengths2.keep (i := input (t + 2)) h2
  have hproducts3 := hlengths2.products (hc 2 (by decide) (by decide))
  obtain ⟨h3, -, hwidth3⟩ := step_product (i := input (t + 2)) h2
  have hwidth : (trace step s.reset input (t + 3)).timePluse2 = (input t).timePluse <<< 2 :=
    hwidth3.trans (hwidth2.trans hwidth1)
  have hvalue := adjusted_step (hc 3 (by decide) (by decide)) h3 hwidth hlengths3 hproducts3
    (hc 4 (by decide) (by decide))
  obtain ⟨h4, -, hwidth4⟩ := step_sum (i := input (t + 3)) h3
  obtain ⟨h5, -, hwidth5⟩ := step_distance (i := input (t + 4)) h4
  obtain ⟨-, -, hpluse, hkeep⟩ := step_done (i := input (t + 5)) h5
  refine ⟨hkeep.trans hvalue, hpluse.trans ?_⟩
  rw [hwidth5, hwidth4]
  exact congrArg (fun x : BitVec 12 => (x.extractLsb' 2 10).setWidth 12) hwidth

theorem cut_add {m m' v : BitVec 18} (h : (m + v).setWidth 16 = (m' + v).setWidth 16) :
    m.setWidth 16 = m'.setWidth 16 := by
  rw [BitVec.setWidth_add _ _ (by decide), BitVec.setWidth_add _ _ (by decide)] at h
  exact (BitVec.add_left_inj _).mp h

theorem cut_sub {m m' v : BitVec 18} (h : (m - v).setWidth 16 = (m' - v).setWidth 16) :
    m.setWidth 16 = m'.setWidth 16 := by
  rw [← BitVec.sub_add_cancel m v, ← BitVec.sub_add_cancel m' v,
    BitVec.setWidth_add _ _ (by decide), BitVec.setWidth_add _ _ (by decide), h]

/-- Pulses of one width come out with one distance only if they went in with one. -/
theorem adjusted_injective {c : Settings} {w : BitVec 12} {m m' : BitVec 18}
    (h : adjusted c w m = adjusted c w m') : m.setWidth 16 = m'.setWidth 16 := by
  obtain ⟨segment, hsegment⟩ := exists_segment c (w <<< 2)
  unfold adjusted at h
  simp only [hsegment] at h
  cases segment with
  | below1 => exact cut_add h
  | upTo2 => exact cut_sub h
  | upTo3 => exact cut_sub h
  | upTo4 => exact cut_sub h
  | above4 => exact cut_sub h

/-! ### The piecewise linear function -/

/-- What is taken from the distance above the first inflection. -/
def taken (c : Settings) (x : ℕ) : ℕ :=
  (min x c.pointCnt2.toNat - c.pointCnt1.toNat) * c.correctCntB.toNat / 16 +
    (min x c.pointCnt3.toNat - c.pointCnt2.toNat) * c.correctCntN.toNat / 16 +
    (min x c.pointCnt4.toNat - c.pointCnt3.toNat) * c.correctCnt4.toNat / 16 +
    (x - c.pointCnt4.toNat) * c.correctCnt5.toNat / 16

/-- What is added to it below. -/
def added (c : Settings) (x : ℕ) : ℕ := (c.pointCnt1.toNat - x) * c.correctCntM.toNat / 16

/-- The correction for a scaled width: linear between the inflections and continuous in them. -/
def correction (c : Settings) (x : ℕ) : ℤ := taken c x - added c x

theorem slope_mono {a b : ℕ} (h : a ≤ b) (k : ℕ) : a * k / 16 ≤ b * k / 16 :=
  Nat.div_le_div_right (Nat.mul_le_mul_right k h)

theorem min_mono {x y : ℕ} (hxy : x ≤ y) (p : ℕ) : min x p ≤ min y p := by omega

theorem correction_mono (c : Settings) : Monotone (correction c) := by
  intro x y hxy
  have htaken : taken c x ≤ taken c y := by
    unfold taken
    have h2 := slope_mono (Nat.sub_le_sub_right (min_mono hxy c.pointCnt2.toNat)
      c.pointCnt1.toNat) c.correctCntB.toNat
    have h3 := slope_mono (Nat.sub_le_sub_right (min_mono hxy c.pointCnt3.toNat)
      c.pointCnt2.toNat) c.correctCntN.toNat
    have h4 := slope_mono (Nat.sub_le_sub_right (min_mono hxy c.pointCnt4.toNat)
      c.pointCnt3.toNat) c.correctCnt4.toNat
    have h5 := slope_mono (Nat.sub_le_sub_right hxy c.pointCnt4.toNat) c.correctCnt5.toNat
    omega
  have hadded : added c y ≤ added c x := slope_mono (Nat.sub_le_sub_left hxy _) _
  unfold correction
  omega

/-- The inflections are in order. -/
structure Settings.Ordered (c : Settings) : Prop where
  le21 : c.pointCnt1.toNat ≤ c.pointCnt2.toNat
  le32 : c.pointCnt2.toNat ≤ c.pointCnt3.toNat
  le43 : c.pointCnt3.toNat ≤ c.pointCnt4.toNat

theorem toNat_high_mulP (a : BitVec 10) (k : BitVec 8) :
    (high (mulP a k)).toNat = a.toNat * k.toNat / 16 := by
  have ha := a.isLt
  have hk := k.isLt
  have hprod : a.toNat * k.toNat ≤ 1023 * 255 := Nat.mul_le_mul (by omega) (by omega)
  have hmul : (mulP a k).toNat = a.toNat * k.toNat := by
    rw [mulP, BitVec.toNat_mul, BitVec.toNat_setWidth_of_le (by decide),
      BitVec.toNat_setWidth_of_le (by decide)]
    exact Nat.mod_eq_of_lt (by omega)
  rw [high, BitVec.toNat_setWidth, BitVec.extractLsb'_toNat, hmul, Nat.shiftRight_eq_div_pow]
  omega

theorem slope_le {a k : ℕ} (ha : a < 1024) (hk : k < 256) : a * k / 16 ≤ 16304 := by
  have hprod : a * k ≤ 1023 * 255 := Nat.mul_le_mul (by omega) (by omega)
  omega

theorem toNat_beyond {x : BitVec 12} {p : BitVec 10} (hle : p.toNat ≤ x.toNat) (hx : x.toNat < 1024) :
    (beyond x p).toNat = x.toNat - p.toNat := by
  have hp : (p.setWidth 12).toNat = p.toNat := BitVec.toNat_setWidth_of_le (by decide)
  rw [beyond, BitVec.toNat_setWidth, BitVec.toNat_sub_of_le (by rw [BitVec.le_def]; omega), hp]
  omega

theorem toNat_under {x : BitVec 12} {p : BitVec 10} (hle : x.toNat ≤ p.toNat) :
    (under x p).toNat = p.toNat - x.toNat := by
  have hp : (p.setWidth 12).toNat = p.toNat := BitVec.toNat_setWidth_of_le (by decide)
  have hlt := p.isLt
  rw [under, BitVec.toNat_setWidth, BitVec.toNat_sub_of_le (by rw [BitVec.le_def]; omega), hp]
  omega

theorem sub_toNat (m v : BitVec 18) :
    (((m - v).setWidth 16).toNat : ℤ) = ((m.toNat : ℤ) - v.toNat) % 65536 := by
  rw [BitVec.toNat_setWidth, BitVec.toNat_sub]
  have := v.isLt
  omega

theorem add_toNat (m v : BitVec 18) :
    (((m + v).setWidth 16).toNat : ℤ) = ((m.toNat : ℤ) + v.toNat) % 65536 := by
  rw [BitVec.toNat_setWidth, BitVec.toNat_add]
  omega

theorem segment_spec (c : Settings) (x : BitVec 12) :
    (c.segment x = some .below1 ∧ x.toNat ≤ c.pointCnt1.toNat) ∨
      (c.segment x = some .upTo2 ∧ c.pointCnt1.toNat < x.toNat ∧ x.toNat ≤ c.pointCnt2.toNat) ∨
      (c.segment x = some .upTo3 ∧ c.pointCnt2.toNat < x.toNat ∧ x.toNat ≤ c.pointCnt3.toNat) ∨
      (c.segment x = some .upTo4 ∧ c.pointCnt3.toNat < x.toNat ∧ x.toNat ≤ c.pointCnt4.toNat) ∨
      (c.segment x = some .above4 ∧ c.pointCnt4.toNat < x.toNat) := by
  unfold Settings.segment
  split_ifs <;> simp <;> omega

section Ordered

variable {c : Settings} (hordered : c.Ordered)

include hordered

theorem rises_toNat :
    c.rise21.toNat = (c.pointCnt2.toNat - c.pointCnt1.toNat) * c.correctCntB.toNat / 16 ∧
      c.rise32.toNat = (c.pointCnt3.toNat - c.pointCnt2.toNat) * c.correctCntN.toNat / 16 ∧
      c.rise43.toNat = (c.pointCnt4.toNat - c.pointCnt3.toNat) * c.correctCnt4.toNat / 16 := by
  obtain ⟨h21, h32, h43⟩ := hordered
  unfold Settings.rise21 Settings.rise32 Settings.rise43
  rw [toNat_high_mulP, toNat_high_mulP, toNat_high_mulP,
    BitVec.toNat_sub_of_le (by rwa [BitVec.le_def]),
    BitVec.toNat_sub_of_le (by rwa [BitVec.le_def]),
    BitVec.toNat_sub_of_le (by rwa [BitVec.le_def])]
  exact ⟨rfl, rfl, rfl⟩

section Segments

variable {x : ℕ}

theorem taken_below1 (hx : x ≤ c.pointCnt1.toNat) : taken c x = 0 := by
  obtain ⟨h21, h32, h43⟩ := hordered
  rw [taken, show min x c.pointCnt2.toNat - c.pointCnt1.toNat = 0 by omega,
    show min x c.pointCnt3.toNat - c.pointCnt2.toNat = 0 by omega,
    show min x c.pointCnt4.toNat - c.pointCnt3.toNat = 0 by omega,
    show x - c.pointCnt4.toNat = 0 by omega]
  simp

theorem taken_upTo2 (hx : x ≤ c.pointCnt2.toNat) :
    taken c x = (x - c.pointCnt1.toNat) * c.correctCntB.toNat / 16 := by
  obtain ⟨h21, h32, h43⟩ := hordered
  rw [taken, Nat.min_eq_left hx,
    show min x c.pointCnt3.toNat - c.pointCnt2.toNat = 0 by omega,
    show min x c.pointCnt4.toNat - c.pointCnt3.toNat = 0 by omega,
    show x - c.pointCnt4.toNat = 0 by omega]
  simp

theorem taken_upTo3 (hlo : c.pointCnt2.toNat < x) (hx : x ≤ c.pointCnt3.toNat) :
    taken c x = c.rise21.toNat + (x - c.pointCnt2.toNat) * c.correctCntN.toNat / 16 := by
  obtain ⟨hrise21, -, -⟩ := rises_toNat hordered
  obtain ⟨h21, h32, h43⟩ := hordered
  rw [taken, hrise21, Nat.min_eq_right hlo.le, Nat.min_eq_left hx,
    show min x c.pointCnt4.toNat - c.pointCnt3.toNat = 0 by omega,
    show x - c.pointCnt4.toNat = 0 by omega]
  simp

theorem taken_upTo4 (hlo : c.pointCnt3.toNat < x) (hx : x ≤ c.pointCnt4.toNat) :
    taken c x = c.rise21.toNat + c.rise32.toNat +
      (x - c.pointCnt3.toNat) * c.correctCnt4.toNat / 16 := by
  obtain ⟨hrise21, hrise32, -⟩ := rises_toNat hordered
  obtain ⟨h21, h32, h43⟩ := hordered
  rw [taken, hrise21, hrise32, Nat.min_eq_right (show c.pointCnt2.toNat ≤ x by omega),
    Nat.min_eq_right hlo.le, Nat.min_eq_left hx, show x - c.pointCnt4.toNat = 0 by omega]
  simp

theorem taken_above4 (hlo : c.pointCnt4.toNat < x) :
    taken c x = c.rise21.toNat + c.rise32.toNat + c.rise43.toNat +
      (x - c.pointCnt4.toNat) * c.correctCnt5.toNat / 16 := by
  obtain ⟨hrise21, hrise32, hrise43⟩ := rises_toNat hordered
  obtain ⟨h21, h32, h43⟩ := hordered
  rw [taken, hrise21, hrise32, hrise43, Nat.min_eq_right (show c.pointCnt2.toNat ≤ x by omega),
    Nat.min_eq_right (show c.pointCnt3.toNat ≤ x by omega), Nat.min_eq_right hlo.le]

omit hordered in
theorem added_above1 (hx : c.pointCnt1.toNat ≤ x) : added c x = 0 := by
  rw [added, Nat.sub_eq_zero_of_le hx, Nat.zero_mul]

end Segments

omit hordered in
/-- No sum of four such products leaves 18 bits. -/
theorem rises_le (c : Settings) :
    c.rise21.toNat ≤ 16304 ∧ c.rise32.toNat ≤ 16304 ∧ c.rise43.toNat ≤ 16304 := by
  unfold Settings.rise21 Settings.rise32 Settings.rise43
  rw [toNat_high_mulP, toNat_high_mulP, toNat_high_mulP]
  exact ⟨slope_le (BitVec.isLt _) (BitVec.isLt _), slope_le (BitVec.isLt _) (BitVec.isLt _),
    slope_le (BitVec.isLt _) (BitVec.isLt _)⟩

/-- The result is the distance less the correction, in 16 bits. -/
theorem adjusted_toNat {w : BitVec 12} (hw : w.toNat < 256) (midDistance : BitVec 18) :
    ((adjusted c w midDistance).toNat : ℤ) =
      ((midDistance.toNat : ℤ) - correction c (4 * w.toNat)) % 65536 := by
  have hx : (w <<< 2).toNat = 4 * w.toNat := by
    rw [BitVec.toNat_shiftLeft, Nat.shiftLeft_eq]
    omega
  have hlt : (w <<< 2).toNat < 1024 := by omega
  obtain ⟨hle21, hle32, hle43⟩ := rises_le c
  have hproduct (p : BitVec 10) (k : BitVec 8) : (high (mulP p k)).toNat ≤ 16304 := by
    rw [toNat_high_mulP]
    exact slope_le p.isLt k.isLt
  have h := hordered
  obtain ⟨h21, h32, h43⟩ := h
  rw [← hx, correction, adjusted]
  rcases segment_spec c (w <<< 2) with ⟨hsegment, hhi⟩ | ⟨hsegment, hlo, hhi⟩ |
    ⟨hsegment, hlo, hhi⟩ | ⟨hsegment, hlo, hhi⟩ | ⟨hsegment, hlo⟩
  · simp only [hsegment]
    rw [add_toNat, taken_below1 hordered hhi, added, toNat_high_mulP, toNat_under hhi]
    omega
  · simp only [hsegment]
    rw [sub_toNat, taken_upTo2 hordered hhi, added_above1 hlo.le, toNat_high_mulP,
      toNat_beyond hlo.le hlt]
    omega
  · have hp := hproduct (beyond (w <<< 2) c.pointCnt2) c.correctCntN
    simp only [hsegment]
    rw [sub_toNat, taken_upTo3 hordered hlo hhi, added_above1 (by omega), BitVec.toNat_add,
      Nat.mod_eq_of_lt (by omega), toNat_high_mulP, toNat_beyond hlo.le hlt]
    omega
  · have hp := hproduct (beyond (w <<< 2) c.pointCnt3) c.correctCnt4
    simp only [hsegment]
    rw [sub_toNat, taken_upTo4 hordered hlo hhi, added_above1 (by omega), BitVec.toNat_add,
      BitVec.toNat_add, Nat.mod_eq_of_lt (a := c.rise21.toNat + _) (by omega),
      Nat.mod_eq_of_lt (by omega), toNat_high_mulP, toNat_beyond hlo.le hlt]
    omega
  · have hp := hproduct (beyond (w <<< 2) c.pointCnt4) c.correctCnt5
    simp only [hsegment]
    rw [sub_toNat, taken_above4 hordered hlo, added_above1 (by omega), BitVec.toNat_add,
      BitVec.toNat_add, BitVec.toNat_add, Nat.mod_eq_of_lt (a := c.rise21.toNat + _) (by omega),
      Nat.mod_eq_of_lt (a := _ + c.rise43.toNat) (by omega), Nat.mod_eq_of_lt (by omega),
      toNat_high_mulP, toNat_beyond hlo.le hlt]
    omega

end Ordered

/-- What is taken is not more than the distance, and what is added leaves it in 16 bits. -/
structure Fits (c : Settings) (x midDistance : ℕ) : Prop where
  taken : taken c x ≤ midDistance
  added : midDistance + added c x < 65536

theorem taken_or_added {c : Settings} (hordered : c.Ordered) (x : ℕ) :
    taken c x = 0 ∨ added c x = 0 := by
  rcases Nat.le_total x c.pointCnt1.toNat with hle | hge
  · exact .inl (taken_below1 hordered hle)
  · exact .inr (added_above1 hge)

theorem adjusted_eq_iff {c : Settings} (hordered : c.Ordered) {w : BitVec 12} (hw : w.toNat < 256)
    {midDistance : BitVec 18} (hmid : midDistance.toNat < 65536) :
    ((adjusted c w midDistance).toNat : ℤ) = midDistance.toNat - correction c (4 * w.toNat) ↔
      Fits c (4 * w.toNat) midDistance.toNat := by
  rw [adjusted_toNat hordered hw, correction]
  constructor
  · intro h
    rcases taken_or_added hordered (4 * w.toNat) with hzero | hzero
    · exact ⟨by omega, by omega⟩
    · exact ⟨by omega, by omega⟩
  · rintro ⟨htaken, hadded⟩
    omega

section Sampled

variable (s : State) (input : ℕ → Input)

theorem state_of_accepts {t : ℕ} (h : accepts (trace step s.reset input t) (input t) = true) :
    (trace step s.reset input (t + 6)).state = 0 :=
  (step_done (i := input (t + 5)) ((state_iff_accepts s input t).2.2.2.2.mpr h)).1

/-- **The correction for the width.** Each pulse taken in leads to one enable and back to state 0, the
correction does not fall with the width, and the distance that comes out is the one that went in less
the correction exactly where this fits. -/
theorem corrected_iff_fits :
    (∀ d, (trace step s.reset input d).adEn = true ↔
        ∃ t, d = t + 6 ∧ accepts (trace step s.reset input t) (input t) = true) ∧
      (∀ t, accepts (trace step s.reset input t) (input t) = true →
        (trace step s.reset input (t + 6)).state = 0) ∧
      (∀ c, Monotone fun w => correction c (4 * w)) ∧
      ∀ t c, accepts (trace step s.reset input t) (input t) = true →
        (∀ k, 1 ≤ k → k ≤ 4 → (input (t + k)).settings = c) → c.Ordered →
        (input t).timePluse.toNat < 256 → (input (t + 4)).midDistance.toNat < 65536 →
          (((trace step s.reset input (t + 6)).adDistance.toNat : ℤ) =
              (input (t + 4)).midDistance.toNat - correction c (4 * (input t).timePluse.toNat) ↔
            Fits c (4 * (input t).timePluse.toNat) (input (t + 4)).midDistance.toNat) := by
  refine ⟨adEn_iff s input, fun t h => state_of_accepts s input h, fun c w w' hle => ?_,
    fun t c h hc hordered hw hmid => ?_⟩
  · exact correction_mono c (Nat.mul_le_mul_left 4 hle)
  · rw [(adDistance_of_accepts s h hc).1]
    exact adjusted_eq_iff hordered hw hmid

end Sampled

/-- All registers at zero. -/
def blank : State :=
  ⟨0, false, 0, 0, 0, 0, 0, 0, 0, 0, 0, 0, 0, 0, 0, 0, 0, 0, 0, 0, 0, 0, 0, 0, 0, 0⟩

/-- A slope of 33 above the first inflection. -/
def mild : Settings := ⟨6, 33, 37, 37, 37, 17, 40, 1000, 1023⟩

/-- The steepest slope there is. -/
def steep : Settings := ⟨6, 255, 37, 37, 37, 0, 1023, 1023, 1023⟩

/-- A pulse in clock 0, from the first to the 100th sample of a return. -/
def onePulse (c : Settings) (t : ℕ) : Input where
  timePluse := 100
  timeEn := t == 0
  midDistance := 3750
  settings := c

theorem corrected_mild :
    (((trace step blank.reset (onePulse mild) 6).adDistance.toNat : ℤ) =
      3750 - correction mild 400) :=
  ((corrected_iff_fits blank (onePulse mild)).2.2.2 0 mild (by decide) (fun _ _ _ => rfl)
    ⟨by decide, by decide, by decide⟩ (by decide) (by decide)).mpr ⟨by decide, by decide⟩

/-- The correction is larger than the distance. -/
theorem correction_wraps :
    ¬ ∀ (s : State) (input : ℕ → Input) (t : ℕ) (c : Settings),
      accepts (trace step s.reset input t) (input t) = true →
        (∀ k, 1 ≤ k → k ≤ 4 → (input (t + k)).settings = c) → c.Ordered →
        (input t).timePluse.toNat < 256 → (input (t + 4)).midDistance.toNat < 65536 →
          ((trace step s.reset input (t + 6)).adDistance.toNat : ℤ) =
            (input (t + 4)).midDistance.toNat - correction c (4 * (input t).timePluse.toNat) := by
  intro h
  have haccepts : accepts (trace step blank.reset (onePulse steep) 0) (onePulse steep 0) = true := by
    decide
  have hordered : steep.Ordered := ⟨by decide, by decide, by decide⟩
  have hvalue := h blank (onePulse steep) 0 steep haccepts (fun _ _ _ => rfl) hordered (by decide)
    (by decide)
  rw [(adDistance_of_accepts blank haccepts fun _ _ _ => rfl).1] at hvalue
  have hfits := (adjusted_eq_iff hordered (by decide) (by decide)).mp hvalue
  exact absurd hfits.taken (by decide)

end SingleScan.AdjustDistance
