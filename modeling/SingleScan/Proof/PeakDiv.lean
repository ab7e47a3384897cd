import SingleScan.PeakDiv
import SingleScan.Lib.Samples
import SingleScan.Lib.Since
import SingleScan.Lib.Trace

/-!
# The pulses that `peak_div` reports

A return is a window of 400 clocks with `data_en`. Every register in it is a function of the samples
that have come in: the edges one clock late, the width and the enable two, the products three. From
these follows what `time_en` hands over in each clock, and from that the list of a window.
-/

namespace SingleScan.PeakDiv

open Clocked Sampled

/-- A return that begins in clock `d`. Before it, `data_en` is low for two clocks or since the
reset. -/
structure Window (input : ℕ → Input) (d : ℕ) (noise upp : BitVec 8) : Prop where
  before : ∀ t, t < d → d ≤ t + 2 → (input t).dataEn = false
  dataEn : ∀ k < 400, (input (d + k)).dataEn = true
  noiseCnt : ∀ k < 400, (input (d + k)).noiseCnt = noise
  uppWith : ∀ k < 400, (input (d + k)).uppWith = upp

/-- The samples of the return. -/
def samples (input : ℕ → Input) (d : ℕ) (k : ℕ) : Bool := (input (d + k)).q

/-- The limits that a width `w` has to keep. -/
def valid (noise upp : BitVec 8) (w : ℕ) : Bool :=
  decide (noise.toNat < w) && decide (w < upp.toNat)

/-- The distance in the middle of a run. -/
def middle (run : ℕ × ℕ) : ℕ := 75 * (run.1 + run.2) / 2

/-- The width and the distance of a run, if its width is valid. -/
def pulse (noise upp : BitVec 8) (run : ℕ × ℕ) : Option (ℕ × ℕ) :=
  if valid noise upp (run.2 - run.1) then some (run.2 - run.1, middle run) else none

/-- The same for the run that ends before sample `f`, if there is one. -/
def pulseAt (noise upp : BitVec 8) (bit : ℕ → Bool) (f : ℕ) : Option (ℕ × ℕ) :=
  if falls bit f then pulse noise upp (f - ones bit f, f) else none

/-- The valid pulses among the maximal runs that end before one of the samples `0`, …, `n - 1`, in
order. -/
def pulses (noise upp : BitVec 8) (bit : ℕ → Bool) (n : ℕ) : List (ℕ × ℕ) :=
  (List.range n).filterMap (pulseAt noise upp bit)

/-- What `time_en` hands over, as numbers. -/
def measured (e : BitVec 12 × BitVec 18) : ℕ × ℕ := (e.1.toNat, e.2.toNat)

/-- The state `k` clocks after clock `d`. -/
abbrev reg (s : State) (input : ℕ → Input) (d k : ℕ) : State := trace step s.reset input (d + k)

/-! ### Between the returns -/

/-- What one clock without `data_en` leaves. -/
structure Cleared (s : State) : Prop where
  cnt : s.cnt = 0
  ampRegH : s.ampRegH = false
  timeReg1 : s.timeReg1 = 0
  timeReg2 : s.timeReg2 = 0
  alarmTime : s.alarmTime = 0
  time1 : s.time1 = 0
  time2 : s.time2 = 0
  midDistance : s.midDistance = 0

/-- What a second one leaves. -/
structure Rest (s : State) : Prop extends Cleared s where
  ampRegMid : s.ampRegMid = false

theorem cleared_step (s : State) {i : Input} (hlow : i.dataEn = false) : Cleared (step s i) := by
  constructor <;> simp [step, edgeStep, widthStep, hlow]

theorem Cleared.rest {s : State} (h : Cleared s) {i : Input} (hlow : i.dataEn = false) :
    Rest (step s i) :=
  ⟨cleared_step s hlow, by simp [step, h.ampRegH]⟩

theorem rest_reset (s : State) : Rest s.reset := ⟨⟨rfl, rfl, rfl, rfl, rfl, rfl, rfl, rfl⟩, rfl⟩

section Window

variable {input : ℕ → Input} {d : ℕ} {noise upp : BitVec 8} {s : State}

theorem Window.rest (h : Window input d noise upp) (s : State) :
    Rest (trace step s.reset input d) := by
  match d, h with
  | 0, _ => exact rest_reset s
  | 1, h => exact (rest_reset s).toCleared.rest (h.before 0 (by omega) (by omega))
  | t + 2, h =>
      exact (cleared_step _ (h.before t (by omega) (by omega))).rest
        (h.before (t + 1) (by omega) (by omega))

/-! ### The registers in the window -/

/-- The registers `k` clocks after the beginning of a window with the samples `bit`. -/
structure At (bit : ℕ → Bool) (k : ℕ) (s : State) : Prop where
  cnt : s.cnt.toNat = k
  ampRegH : s.ampRegH = decide (0 < ones bit k)
  rise : 0 < ones bit k → s.timeReg1.toNat = k - ones bit k
  ampRegMid : s.ampRegMid = falls bit (k - 1)
  edges : falls bit (k - 1) = true →
    s.timeReg1.toNat = (lastRun bit k).1 ∧ s.timeReg2.toNat = (lastRun bit k).2
  alarmTime : s.alarmTime.toNat = (lastRun bit (k - 1)).2 - (lastRun bit (k - 1)).1
  time1 : s.time1.toNat = (lastRun bit (k - 1)).1
  time2 : s.time2.toNat = (lastRun bit (k - 1)).2

theorem Rest.at_zero (h : Rest s) (bit : ℕ → Bool) : At bit 0 s where
  cnt := by rw [h.cnt]; rfl
  ampRegH := h.ampRegH
  rise hpos := absurd hpos (by simp [ones])
  ampRegMid := h.ampRegMid.trans falls_zero.symm
  edges hfalls := absurd hfalls (by simp [falls_zero])
  alarmTime := by rw [h.alarmTime]; rfl
  time1 := by rw [h.time1]; rfl
  time2 := by rw [h.time2]; rfl

/-- The width and the edges of the last run are there two clocks after its end. -/
theorem At.width {bit : ℕ → Bool} {k : ℕ} (h : At bit k s) {i : Input} (hen : i.dataEn = true) :
    (step s i).alarmTime.toNat = (lastRun bit k).2 - (lastRun bit k).1 ∧
      (step s i).time1.toNat = (lastRun bit k).1 ∧ (step s i).time2.toNat = (lastRun bit k).2 := by
  simp only [PeakDiv.step, widthStep, hen, if_true, h.ampRegMid]
  cases hlast : falls bit (k - 1) with
  | false =>
      simp only [Bool.false_eq_true, if_false, lastRun_pred hlast]
      exact ⟨h.alarmTime, h.time1, h.time2⟩
  | true =>
      obtain ⟨hrise, hfall⟩ := h.edges hlast
      have hbound : (lastRun bit k).1 ≤ (lastRun bit k).2 := (lastRun_bounds k).1
      refine ⟨?_, hrise, hfall⟩
      simp only [if_true]
      rw [BitVec.toNat_sub_of_le (by rw [BitVec.le_def]; omega), hrise, hfall]

/-- **The step lemma.** -/
theorem At.step {bit : ℕ → Bool} {k : ℕ} (h : At bit k s) {i : Input} (hen : i.dataEn = true)
    (hq : i.q = bit k) (hk : k < 400) : At bit (k + 1) (step s i) := by
  have hle : ones bit k ≤ k := ones_le k
  have hfalls : (s.ampRegH && !i.q) = falls bit k := by
    rw [h.ampRegH, hq, falls, Bool.and_comm]
  obtain ⟨halarm, htime1, htime2⟩ := h.width hen
  refine ⟨?_, ?_, fun hpos => ?_, hfalls, fun hlast => ?_, halarm, htime1, htime2⟩
  · have hone : (1 : BitVec 12).toNat = 1 := rfl
    simp only [PeakDiv.step, edgeStep, hen, if_true, BitVec.toNat_add, h.cnt, hone]
    exact Nat.mod_eq_of_lt (by omega)
  · simp only [PeakDiv.step, edgeStep, hen, if_true, hq]
    cases hbit : bit k with
    | false => simp [ones_succ_of_clear hbit]
    | true => simp [ones_succ_of_set hbit]
  · cases hbit : bit k with
    | false =>
        rw [ones_succ_of_clear hbit] at hpos
        omega
    | true =>
        rw [ones_succ_of_set hbit]
        simp only [PeakDiv.step, edgeStep, hen, if_true, hq, hbit, h.ampRegH, Bool.and_true,
          Bool.not_eq_true', decide_eq_false_iff_not]
        by_cases hfirst : 0 < ones bit k
        · rw [if_neg (not_not.mpr hfirst), h.rise hfirst]
          omega
        · rw [if_pos hfirst, h.cnt]
          omega
  · rw [Nat.add_sub_cancel] at hlast
    have hclear := clear_of_falls hlast
    have hpos := ones_pos_of_falls hlast
    simp only [PeakDiv.step, edgeStep, hen, if_true, hq, hclear, h.ampRegH, lastRun_of_falls hlast,
      Bool.and_false, Bool.not_false, Bool.and_true, Bool.false_eq_true, if_false,
      decide_eq_true hpos]
    exact ⟨h.rise hpos, h.cnt⟩

section Registers

variable (h : Window input d noise upp) (s : State)

include h

theorem Window.at : ∀ k ≤ 400, At (samples input d) k (reg s input d k) := by
  intro k
  induction k with
  | zero => exact fun _ => (h.rest s).at_zero _
  | succ k ih => exact fun hk => (ih (by omega)).step (h.dataEn k (by omega)) rfl (by omega)

theorem Window.inLimits {k : ℕ} (hk : k < 400) :
    (reg s input d k).inLimits (input (d + k)) =
      valid noise upp ((lastRun (samples input d) (k - 1)).2 -
        (lastRun (samples input d) (k - 1)).1) := by
  rw [State.inLimits, (h.at s k hk.le).alarmTime, h.noiseCnt k hk, h.uppWith k hk, valid]

theorem Window.timeEn1 {k : ℕ} (hk : k < 400) :
    (reg s input d (k + 1)).timeEn1 = falls (samples input d) (k - 1) := by
  have hmid := (h.at s k hk.le).ampRegMid
  change (step (reg s input d k) (input (d + k))).timeEn1 = _
  rw [← hmid]
  simp only [step, widthStep, h.dataEn k hk, if_true]
  cases (reg s input d k).ampRegMid <;> rfl

theorem Window.timeEnRise {k : ℕ} (hk : k + 1 < 400) :
    (reg s input d (k + 3)).timeEnRise = falls (samples input d) (k - 1) := by
  have hrise : (reg s input d (k + 3)).timeEnR =
      ((reg s input d (k + 1)).timeEn1, (reg s input d (k + 2)).timeEn1) := rfl
  rw [State.timeEnRise, hrise, h.timeEn1 s (by omega), h.timeEn1 s hk, Nat.add_sub_cancel]
  cases k with
  | zero => rw [falls_zero]; rfl
  | succ k =>
      rw [Nat.add_sub_cancel]
      cases hfalls : falls (samples input d) k with
      | false => rfl
      | true => rw [not_falls_succ hfalls]; rfl

/-- The noise test passes four clocks after the end of a run, on the width that is there then. -/
theorem Window.accepts {k : ℕ} (hk : k < 400) :
    ((reg s input d k).inLimits (input (d + k)) && (reg s input d k).timeEnRise) =
      (falls (samples input d) (k - 4) && valid noise upp
        ((lastRun (samples input d) (k - 1)).2 - (lastRun (samples input d) (k - 1)).1)) := by
  rw [h.inLimits s hk, Bool.and_comm]
  match k with
  | 0 | 1 => simp [lastRun, valid, falls_zero]
  | 2 => simp [lastRun, valid, falls_zero]
  | k + 3 => rw [h.timeEnRise s (by omega)]; rfl

theorem Window.timeEn2 {k : ℕ} (hk : k < 400) :
    (reg s input d (k + 1)).timeEn2 =
      ((reg s input d k).inLimits (input (d + k)) && (reg s input d k).timeEnRise) := by
  change (step (reg s input d k) (input (d + k))).timeEn2 = _
  simp [step, noiseStep, h.dataEn k hk]

theorem Window.timePluse {k : ℕ} (hk : k < 400) :
    (reg s input d (k + 1)).timePluse =
      if (reg s input d k).inLimits (input (d + k)) && (reg s input d k).timeEnRise then
        (reg s input d k).alarmTime
      else (reg s input d k).timePluse := by
  change (step (reg s input d k) (input (d + k))).timePluse = _
  simp [step, noiseStep, h.dataEn k hk]

theorem Window.timeEn {k : ℕ} (hk : k < 400) :
    (reg s input d (k + 1)).timeEn = (reg s input d k).timeEn2 := by
  change (step (reg s input d k) (input (d + k))).timeEn = _
  simp [step, h.dataEn k hk]

/-- The distance follows the width by one clock more, while the width is valid. -/
theorem Window.midDistance {k : ℕ} (hk : k + 1 < 400) :
    (reg s input d (k + 2)).midDistance.toNat =
      if valid noise upp ((lastRun (samples input d) k).2 - (lastRun (samples input d) k).1) then
        middle (lastRun (samples input d) (k - 1))
      else (reg s input d (k + 1)).midDistance.toNat := by
  have hlimits := h.inLimits s (k := k + 1) hk
  rw [Nat.add_sub_cancel] at hlimits
  have htime1 := (h.at s k (by omega)).time1
  have htime2 := (h.at s k (by omega)).time2
  obtain ⟨hfirst, hlast⟩ : (lastRun (samples input d) (k - 1)).1 ≤ (lastRun (samples input d) (k - 1)).2 ∧
      (lastRun (samples input d) (k - 1)).2 ≤ k - 1 := lastRun_bounds (k - 1)
  have hprod (x : BitVec 12) (hx : x.toNat ≤ 400) : (mulZ x 75).toNat = 75 * x.toNat := by
    have hdatab : ((75 : BitVec 20).setWidth 32).toNat = 75 := rfl
    rw [mulZ, BitVec.toNat_mul, hdatab, BitVec.toNat_setWidth]
    omega
  change (step (reg s input d (k + 1)) (input (d + (k + 1)))).midDistance.toNat = _
  simp only [step, h.dataEn (k + 1) hk, if_true, hlimits]
  split
  · have htar1 : (reg s input d (k + 1)).tarDis1 = mulZ (reg s input d k).time1 75 := rfl
    have htar2 : (reg s input d (k + 1)).tarDis2 = mulZ (reg s input d k).time2 75 := rfl
    have hprod1 := hprod (reg s input d k).time1 (by omega)
    have hprod2 := hprod (reg s input d k).time2 (by omega)
    rw [htar1, htar2, middle]
    simp only [BitVec.toNat_setWidth, BitVec.toNat_ushiftRight, BitVec.toNat_add, hprod1, hprod2,
      htime1, htime2, Nat.shiftRight_eq_div_pow]
    rw [Nat.mod_eq_of_lt (show 75 * (lastRun (samples input d) (k - 1)).2 < 2 ^ 19 by omega),
      Nat.mod_eq_of_lt (show 75 * (lastRun (samples input d) (k - 1)).1 < 2 ^ 19 by omega),
      ← Nat.mul_add, Nat.add_comm, Nat.mod_eq_of_lt (by omega), Nat.mod_eq_of_lt (by omega)]
  · rfl

theorem Window.midDistance_one : (reg s input d 1).midDistance = 0 := by
  have hzero : (reg s input d 0).midDistance = 0 := (h.rest s).midDistance
  have hlimits : (reg s input d 0).inLimits (input (d + 0)) = false := by
    rw [h.inLimits s (by decide)]
    simp [lastRun, valid]
  change (step (reg s input d 0) (input (d + 0))).midDistance = 0
  simp only [step, h.dataEn 0 (by decide), hlimits, hzero, Bool.false_eq_true, if_false, if_true]

theorem Window.midDistance_lt : ∀ k ≤ 400, (reg s input d k).midDistance.toNat < 65536
  | 0, _ => by
      rw [show (reg s input d 0).midDistance = 0 from (h.rest s).midDistance]
      decide
  | 1, _ => by
      rw [h.midDistance_one s]
      decide
  | k + 2, hk => by
      rw [h.midDistance s (by omega)]
      split
      · have hbounds : (lastRun (samples input d) (k - 1)).1 ≤ (lastRun (samples input d) (k - 1)).2 ∧
            (lastRun (samples input d) (k - 1)).2 ≤ k - 1 := lastRun_bounds (k - 1)
        rw [middle]
        omega
      · exact Window.midDistance_lt (k + 1) (by omega)

theorem Window.timeEn_two {k : ℕ} (hk : k + 1 < 400) :
    (reg s input d (k + 2)).timeEn =
      (falls (samples input d) (k - 4) && valid noise upp
        ((lastRun (samples input d) (k - 1)).2 - (lastRun (samples input d) (k - 1)).1)) := by
  rw [h.timeEn s (k := k + 1) hk, h.timeEn2 s (by omega), h.accepts s (by omega)]

section Report

variable {f : ℕ} (hf : f + 6 < 400) (hfalls : falls (samples input d) f = true)
  (hvalid : valid noise upp ((lastRun (samples input d) (f + 3)).2 -
    (lastRun (samples input d) (f + 3)).1) = true)

include hf hfalls hvalid

/-- No other run is tested in the clock in which `time_pluse` is read. -/
theorem Window.report_width : (reg s input d (f + 6)).timePluse.toNat =
    (lastRun (samples input d) (f + 3)).2 - (lastRun (samples input d) (f + 3)).1 := by
  have hnext : ((reg s input d (f + 5)).inLimits (input (d + (f + 5))) &&
      (reg s input d (f + 5)).timeEnRise) = false := by
    rw [h.accepts s (by omega), show f + 5 - 4 = f + 1 by omega, not_falls_succ hfalls,
      Bool.false_and]
  have hthis : ((reg s input d (f + 4)).inLimits (input (d + (f + 4))) &&
      (reg s input d (f + 4)).timeEnRise) = true := by
    rw [h.accepts s (by omega), Nat.add_sub_cancel, hfalls, Bool.true_and]
    exact hvalid
  rw [h.timePluse s (k := f + 5) (by omega), hnext, h.timePluse s (k := f + 4) (by omega), hthis]
  exact (h.at s (f + 4) (by omega)).alarmTime

omit hfalls in
/-- The products of a run have been added before the width of the next one is there. -/
theorem Window.report_distance : (reg s input d (f + 6)).midDistance.toNat =
    middle (lastRun (samples input d) (f + 3)) := by
  rw [h.midDistance s (k := f + 4) (by omega)]
  split
  · rfl
  · rename_i hlimits
    rw [h.midDistance s (k := f + 3) (by omega), if_pos hvalid]
    cases hthree : falls (samples input d) (f + 3) with
    | false => exact absurd (lastRun_of_not_falls hthree ▸ hvalid) hlimits
    | true =>
        have htwo : falls (samples input d) (f + 2) = false := by
          rw [Bool.eq_false_iff]
          intro htwo
          rw [not_falls_succ htwo] at hthree
          exact Bool.false_ne_true hthree
        rw [lastRun_of_not_falls htwo]
        rfl

end Report

/-- **The report of a run.** Six clocks after the end of a run, `time_en` hands over the run whose width
has been tested, which is the last one that ended by two clocks after that end. -/
theorem Window.report {f : ℕ} (hf : f + 6 < 400) :
    (echo (reg s input d (f + 6)) (input (d + (f + 6)))).map measured =
      if falls (samples input d) f then pulse noise upp (lastRun (samples input d) (f + 3))
      else none := by
  have htimeEn : (reg s input d (f + 6)).timeEn = (falls (samples input d) f &&
      valid noise upp ((lastRun (samples input d) (f + 3)).2 -
        (lastRun (samples input d) (f + 3)).1)) := h.timeEn_two s (k := f + 4) (by omega)
  rw [echo, htimeEn, pulse]
  cases hfalls : falls (samples input d) f with
  | false => rfl
  | true =>
      rw [Bool.true_and, if_pos rfl]
      by_cases hvalid : valid noise upp ((lastRun (samples input d) (f + 3)).2 -
        (lastRun (samples input d) (f + 3)).1) = true
      · rw [if_pos hvalid, if_pos hvalid, ← h.report_width s hf hfalls hvalid,
          ← h.report_distance s hf hvalid]
        rfl
      · rw [if_neg hvalid, if_neg hvalid]
        rfl

/-- Nothing is handed over before the first run can have been tested. -/
theorem Window.quiet {k : ℕ} (hlo : 2 ≤ k) (hhi : k < 6) :
    echo (reg s input d k) (input (d + k)) = none := by
  obtain ⟨k, rfl⟩ : ∃ j, k = j + 2 := ⟨k - 2, by omega⟩
  rw [echo, h.timeEn_two s (by omega), show k - 4 = 0 by omega, falls_zero]
  rfl

/-! ### The list of a window -/

/-- The run that is tested for the one that ends at `f`. -/
def reported (noise upp : BitVec 8) (bit : ℕ → Bool) (f : ℕ) : Option (ℕ × ℕ) :=
  if falls bit f then pulse noise upp (lastRun bit (f + 3)) else none

/-- What the first two clocks of a window hand over of an earlier one. -/
def leftover (s : State) (input : ℕ → Input) (d : ℕ) : List (ℕ × ℕ) :=
  ((echo (reg s input d 0) (input (d + 0))).toList ++
    (echo (reg s input d 1) (input (d + 1))).toList).map measured

theorem Window.log : (logged step s.reset input echo d 400).map measured =
    leftover s input d ++
      (List.range 394).filterMap (reported noise upp (samples input d)) := by
  have hsix : List.range 6 = [0, 1, 2, 3, 4, 5] := rfl
  have hrange : List.range 400 = List.range 6 ++ (List.range 394).map (6 + ·) :=
    List.range_add (n := 6) (m := 394)
  have hlate : ∀ f ∈ List.range 394, (echo (reg s input d (6 + f)) (input (d + (6 + f)))).map
      measured = reported noise upp (samples input d) f := by
    intro f hf
    rw [List.mem_range] at hf
    rw [Nat.add_comm 6 f]
    exact h.report s (by omega)
  have hfirst : (List.range 6).filterMap
      (fun k => echo (reg s input d k) (input (d + k))) =
      (echo (reg s input d 0) (input (d + 0))).toList ++
        (echo (reg s input d 1) (input (d + 1))).toList := by
    rw [hsix]
    simp only [List.filterMap_cons, h.quiet s (k := 2) (by decide) (by decide),
      h.quiet s (k := 3) (by decide) (by decide), h.quiet s (k := 4) (by decide) (by decide),
      h.quiet s (k := 5) (by decide) (by decide), List.filterMap_nil]
    cases echo (reg s input d 0) (input (d + 0)) <;>
      cases echo (reg s input d 1) (input (d + 1)) <;> rfl
  have hlogged : logged step s.reset input echo d 400 =
      (List.range 400).filterMap fun k => echo (reg s input d k) (input (d + k)) := by
    rw [logged, List.range'_eq_map_range, List.filterMap_map]
    rfl
  rw [hlogged, hrange, List.filterMap_append, List.map_append, hfirst, List.filterMap_map,
    List.map_filterMap]
  congr 1
  exact List.filterMap_congr hlate

omit h in
theorem echo_eq_some_iff {s : State} {i : Input} {e : BitVec 12 × BitVec 18} :
    echo s i = some e ↔ s.timeEn = true ∧ (s.timePluse, s.midDistance) = e := by
  unfold echo
  split <;> simp_all

theorem Window.leftover_distance : ∀ e ∈ leftover s input d, e.2 = 0 := by
  have hzero : (reg s input d 0).midDistance = 0 := (h.rest s).midDistance
  have hone := h.midDistance_one s
  intro e he
  rw [leftover, List.mem_map] at he
  obtain ⟨x, hx, rfl⟩ := he
  rw [List.mem_append, Option.mem_toList, Option.mem_toList,
    echo_eq_some_iff, echo_eq_some_iff] at hx
  rcases hx with ⟨-, rfl⟩ | ⟨-, rfl⟩
  · rw [measured, hzero]
    rfl
  · rw [measured, hone]
    rfl

theorem Window.leftover_eq_nil_iff : leftover s input d = [] ↔
    (reg s input d 0).timeEn = false ∧ (reg s input d 0).timeEn2 = false := by
  rw [leftover, List.map_eq_nil_iff, List.append_eq_nil_iff, Option.toList_eq_nil_iff,
    Option.toList_eq_nil_iff, echo, echo, h.timeEn s (by decide)]
  simp

end Registers

theorem pulses_distance {bit : ℕ → Bool} {n : ℕ} : ∀ e ∈ pulses noise upp bit n, 0 < e.2 := by
  intro e he
  rw [pulses, List.mem_filterMap] at he
  obtain ⟨f, -, hf⟩ := he
  rw [pulseAt] at hf
  split at hf
  · rename_i hfalls
    have hpos := ones_pos_of_falls hfalls
    have hle : ones bit f ≤ f := ones_le f
    rw [pulse] at hf
    split at hf
    · rw [Option.some.injEq] at hf
      rw [← hf]
      simp only [middle]
      omega
    · exact absurd hf (by simp)
  · exact absurd hf (by simp)

section Reported

variable {bit : ℕ → Bool} {f : ℕ}

/-- A run with no other one right behind it is tested on its own width. -/
theorem reported_alone (htwo : falls bit (f + 2) = false) :
    reported noise upp bit f = pulseAt noise upp bit f := by
  rw [reported, pulseAt]
  cases hfalls : falls bit f with
  | false => rfl
  | true =>
      rw [if_pos rfl, if_pos rfl, lastRun_of_not_falls htwo,
        lastRun_of_not_falls (not_falls_succ hfalls), lastRun_of_falls hfalls]

/-- A run that ends two samples before another one is tested on that one, which has one sample. -/
theorem reported_followed (hfalls : falls bit f = true) (htwo : falls bit (f + 2) = true) :
    reported noise upp bit f = if valid noise upp 1 then some (1, middle (f + 1, f + 2)) else none := by
  rw [reported, if_pos hfalls, lastRun_of_falls htwo, ones_of_falls_two hfalls htwo, pulse,
    Nat.sub_sub_self (show 1 ≤ f + 2 by omega)]
  rfl

theorem pulseAt_of_falls (hfalls : falls bit f = true) :
    pulseAt noise upp bit f =
      if valid noise upp (ones bit f) then some (ones bit f, middle (f - ones bit f, f)) else none := by
  rw [pulseAt, if_pos hfalls, pulse, Nat.sub_sub_self (ones_le f)]

theorem reported_eq_iff (f : ℕ) :
    reported noise upp bit f = pulseAt noise upp bit f ↔
      (falls bit f = true → falls bit (f + 2) = true →
        valid noise upp (ones bit f) = false ∧ valid noise upp 1 = false) := by
  cases htwo : falls bit (f + 2) with
  | false => simp [reported_alone htwo]
  | true =>
      cases hfalls : falls bit f with
      | false => simp [reported, pulseAt, hfalls]
      | true =>
          have hle : ones bit f ≤ f := ones_le f
          have hmiddle : middle (f + 1, f + 2) ≠ middle (f - ones bit f, f) := by
            simp only [middle]
            omega
          rw [reported_followed hfalls htwo, pulseAt_of_falls hfalls]
          cases valid noise upp (ones bit f) <;> cases valid noise upp 1 <;> simp [hmiddle]

/-- Where one-sample runs are valid, every valid run leads to a report; where they are not, every report
comes from a valid run. -/
theorem reported_nested (noise upp : BitVec 8) (bit : ℕ → Bool) :
    (∀ f, (pulseAt noise upp bit f).isSome → (reported noise upp bit f).isSome) ∨
      ∀ f, (reported noise upp bit f).isSome → (pulseAt noise upp bit f).isSome := by
  have halone {f : ℕ} (htwo : falls bit (f + 2) = false) :
      reported noise upp bit f = pulseAt noise upp bit f := reported_alone htwo
  cases hone : valid noise upp 1 with
  | true =>
      refine .inl fun f hsome => ?_
      cases htwo : falls bit (f + 2) with
      | false => rwa [halone htwo]
      | true =>
          cases hfalls : falls bit f with
          | false => simp [pulseAt, hfalls] at hsome
          | true => simp [reported_followed hfalls htwo, hone]
  | false =>
      refine .inr fun f hsome => ?_
      cases htwo : falls bit (f + 2) with
      | false => rwa [← halone htwo]
      | true =>
          cases hfalls : falls bit f with
          | false => simp [reported, hfalls] at hsome
          | true => simp [reported_followed hfalls htwo, hone] at hsome

end Reported

/-! ### What a return leaves to the next one -/

/-- The width that the run that ends before sample `f` is tested on. -/
def testedWidth (bit : ℕ → Bool) (f : ℕ) : ℕ := if falls bit (f + 2) then 1 else ones bit f

theorem testedWidth_eq {bit : ℕ → Bool} {f : ℕ} (hfalls : falls bit f = true) :
    (lastRun bit (f + 3)).2 - (lastRun bit (f + 3)).1 = testedWidth bit f := by
  rw [testedWidth]
  cases htwo : falls bit (f + 2) with
  | false =>
      rw [lastRun_of_not_falls htwo, lastRun_of_not_falls (not_falls_succ hfalls),
        lastRun_of_falls hfalls]
      exact Nat.sub_sub_self (ones_le f)
  | true =>
      rw [lastRun_of_falls htwo, ones_of_falls_two hfalls htwo]
      exact Nat.sub_sub_self (show 1 ≤ f + 2 by omega)

/-- A run passes the noise test. -/
def passes (noise upp : BitVec 8) (bit : ℕ → Bool) (f : ℕ) : Bool :=
  falls bit f && valid noise upp (testedWidth bit f)

theorem passes_eq (noise upp : BitVec 8) (bit : ℕ → Bool) (f : ℕ) :
    (falls bit f && valid noise upp ((lastRun bit (f + 3)).2 - (lastRun bit (f + 3)).1)) =
      passes noise upp bit f := by
  rw [passes]
  cases hfalls : falls bit f with
  | false => rfl
  | true => rw [testedWidth_eq hfalls]

theorem passes_congr {noise upp : BitVec 8} {bit bit' : ℕ → Bool} {f : ℕ}
    (h : ∀ i ≤ f + 2, bit i = bit' i) : passes noise upp bit f = passes noise upp bit' f := by
  rw [passes, passes, testedWidth, testedWidth, falls_congr fun i hi => h i (by omega), falls_congr h,
    ones_congr fun i hi => h i (by omega)]

/-- From the third clock of a window on, the enables are those of its runs. -/
theorem Window.timeEn_of_passes (h : Window input d noise upp) (s : State) {k : ℕ} (hlo : 2 ≤ k)
    (hhi : k < 400) : (reg s input d k).timeEn =
      (decide (6 ≤ k) && passes noise upp (samples input d) (k - 6)) := by
  obtain ⟨j, rfl⟩ : ∃ j, k = j + 2 := ⟨k - 2, by omega⟩
  rw [h.timeEn_two s (by omega)]
  rcases Nat.lt_or_ge j 4 with hearly | hlate
  · rw [show j - 4 = 0 by omega, falls_zero, decide_eq_false (by omega)]
    rfl
  · obtain ⟨f, rfl⟩ : ∃ f, j = f + 4 := ⟨j - 4, by omega⟩
    rw [Nat.add_sub_cancel, decide_eq_true (by omega), Bool.true_and, ← passes_eq]
    rfl

/-- A run that is not followed by another one in the next six samples keeps its distance. -/
theorem Window.midDistance_of_alone (h : Window input d noise upp) (s : State) {f : ℕ}
    (hf : f + 10 ≤ 400) (hpasses : passes noise upp (samples input d) f = true)
    (halone : ∀ j < 6, falls (samples input d) (f + 1 + j) = false) :
    (reg s input d (f + 6 + 4)).midDistance = (reg s input d (f + 6)).midDistance := by
  rw [passes, Bool.and_eq_true] at hpasses
  obtain ⟨hfalls, hvalid⟩ := hpasses
  rw [← testedWidth_eq hfalls] at hvalid
  have hlast : ∀ j, j ≤ 6 → lastRun (samples input d) (f + 1 + j) =
      lastRun (samples input d) (f + 1) := by
    intro j
    induction j with
    | zero => exact fun _ => rfl
    | succ j ih =>
        intro hj
        rw [← Nat.add_assoc, lastRun_of_not_falls (halone j (by omega)),
          ih (by omega)]
  have hnow := h.report_distance s (by omega) hvalid
  have hstep (j : ℕ) (hj : j ≤ 3) (heq : (reg s input d (f + 6 + j)).midDistance.toNat =
      middle (lastRun (samples input d) (f + 1))) :
      (reg s input d (f + 6 + (j + 1))).midDistance.toNat =
        middle (lastRun (samples input d) (f + 1)) := by
    have hnext := h.midDistance s (k := f + 5 + j) (by omega)
    rw [show f + 5 + j + 2 = f + 6 + (j + 1) by omega, show f + 5 + j + 1 = f + 6 + j by omega,
      show f + 5 + j - 1 = f + 1 + (3 + j) by omega, hlast (3 + j) (by omega), heq] at hnext
    rw [hnext]
    split <;> rfl
  have hthree : lastRun (samples input d) (f + 3) = lastRun (samples input d) (f + 1) :=
    hlast 2 (by decide)
  rw [hthree] at hnow
  rw [← BitVec.toNat_inj, hnow]
  exact hstep 3 le_rfl (hstep 2 (by decide) (hstep 1 (by decide) (hstep 0 (by decide) hnow)))

/-- At the end of the window two runs are on their way. -/
theorem Window.ends (h : Window input d noise upp) (s : State) :
    (reg s input d 400).timeEn = passes noise upp (samples input d) 394 ∧
      (reg s input d 400).timeEn2 = passes noise upp (samples input d) 395 := by
  rw [← passes_eq, ← passes_eq]
  refine ⟨h.timeEn_two s (k := 398) (by decide), ?_⟩
  rw [h.timeEn2 s (k := 399) (by decide), h.accepts s (by decide)]

theorem timeEn_of_low {c : ℕ} (hle : d ≤ c) (hlow : ∀ t, d ≤ t → t < c → (input t).dataEn = false) :
    (trace step s.reset input c).timeEn = (trace step s.reset input d).timeEn ∧
      (trace step s.reset input c).timeEn2 = (trace step s.reset input d).timeEn2 := by
  induction c, hle using Nat.le_induction with
  | base => exact ⟨rfl, rfl⟩
  | succ c hle ih =>
      obtain ⟨htimeEn, htimeEn2⟩ := ih fun t hd hlt => hlow t hd (by omega)
      rw [← htimeEn, ← htimeEn2]
      change (step _ (input c)).timeEn = _ ∧ (step _ (input c)).timeEn2 = _
      simp [step, noiseStep, hlow c hle (Nat.lt_succ_self c)]

/-- Whenever `data_en` is high, a return comes in. -/
def Returns (input : ℕ → Input) : Prop :=
  ∀ t, (input t).dataEn = true → ∃ d noise upp, Window input d noise upp ∧ d ≤ t ∧ t < d + 400

/-- The return that begins in clock `d₀` is the last one before clock `d`. -/
structure Previous (input : ℕ → Input) (d₀ : ℕ) (noise₀ upp₀ : BitVec 8) (d : ℕ) : Prop where
  window : Window input d₀ noise₀ upp₀
  le : d₀ + 400 ≤ d
  low : ∀ t, d₀ + 400 ≤ t → t < d → (input t).dataEn = false

theorem Previous.ends {d₀ : ℕ} {noise₀ upp₀ : BitVec 8} (h : Previous input d₀ noise₀ upp₀ d)
    (s : State) :
    (trace step s.reset input d).timeEn = passes noise₀ upp₀ (samples input d₀) 394 ∧
      (trace step s.reset input d).timeEn2 = passes noise₀ upp₀ (samples input d₀) 395 := by
  obtain ⟨htimeEn, htimeEn2⟩ := timeEn_of_low (s := s) h.le h.low
  rw [htimeEn, htimeEn2]
  exact h.window.ends s

/-- Before a return there is a last one or none. -/
theorem Window.previous (hreturns : Returns input) (h : Window input d noise upp) :
    (∀ t < d, (input t).dataEn = false) ∨
      ∃ d₀ noise₀ upp₀, Previous input d₀ noise₀ upp₀ d := by
  rcases Nat.eq_zero_or_pos d with rfl | hpos
  · exact .inl fun t ht => absurd ht (Nat.not_lt_zero t)
  rcases last_or_none (fun t => (input t).dataEn = true) (d - 1) with hnone | ⟨t, ht⟩
  · exact .inl fun t ht => Bool.eq_false_iff.mpr (hnone t (by omega))
  obtain ⟨d₀, noise₀, upp₀, hwindow, hlo, hhi⟩ := hreturns t ht.event
  have hlow := h.before (d - 1) (by omega) (by omega)
  have hend : d₀ + 400 ≤ d := by
    by_contra hlt
    have hhigh := hwindow.dataEn (d - 1 - d₀) (by have := ht.le; omega)
    rw [show d₀ + (d - 1 - d₀) = d - 1 by have := ht.le; omega, hlow] at hhigh
    exact Bool.false_ne_true hhigh
  refine .inr ⟨d₀, noise₀, upp₀, hwindow, hend, fun e hle hlt => ?_⟩
  exact Bool.eq_false_iff.mpr (ht.none e (by omega) (by omega))

/-! ### The condition -/

/-- The last return before this one has left nothing, and no run of this one that is followed by a run of
one sample after a gap of one sample is valid, nor is the width of one sample. -/
structure Spared (input : ℕ → Input) (d : ℕ) (noise upp : BitVec 8) : Prop where
  left : ∀ d₀ noise₀ upp₀, Previous input d₀ noise₀ upp₀ d →
    passes noise₀ upp₀ (samples input d₀) 394 = false ∧
      passes noise₀ upp₀ (samples input d₀) 395 = false
  runs : ∀ f < 394, falls (samples input d) f = true → falls (samples input d) (f + 2) = true →
    valid noise upp (ones (samples input d) f) = false ∧ valid noise upp 1 = false

section Condition

variable (h : Window input d noise upp) (s : State)

include h

theorem Window.leftover_iff (hreturns : Returns input) : leftover s input d = [] ↔
    ∀ d₀ noise₀ upp₀, Previous input d₀ noise₀ upp₀ d →
      passes noise₀ upp₀ (samples input d₀) 394 = false ∧
        passes noise₀ upp₀ (samples input d₀) 395 = false := by
  rw [h.leftover_eq_nil_iff s]
  constructor
  · intro hnone d₀ noise₀ upp₀ hprevious
    obtain ⟨htimeEn, htimeEn2⟩ := hprevious.ends s
    rw [← htimeEn, ← htimeEn2]
    exact hnone
  · intro hleft
    rcases h.previous hreturns with hlow | ⟨d₀, noise₀, upp₀, hprevious⟩
    · exact timeEn_of_low (s := s) (Nat.zero_le d) fun t _ ht => hlow t ht
    · obtain ⟨htimeEn, htimeEn2⟩ := hprevious.ends s
      change (trace step s.reset input d).timeEn = false ∧
        (trace step s.reset input d).timeEn2 = false
      rw [htimeEn, htimeEn2]
      exact hleft d₀ noise₀ upp₀ hprevious

omit h in
theorem pulses_eq_iff : (List.range 394).filterMap (reported noise upp (samples input d)) =
    pulses noise upp (samples input d) 394 ↔ ∀ f < 394, falls (samples input d) f = true →
      falls (samples input d) (f + 2) = true →
        valid noise upp (ones (samples input d) f) = false ∧ valid noise upp 1 = false := by
  rw [pulses]
  simp only [← reported_eq_iff, ← List.mem_range]
  rcases reported_nested noise upp (samples input d) with hnested | hnested
  · rw [eq_comm, filterMap_eq_iff fun f _ => hnested f]
    exact forall₂_congr fun f _ => eq_comm
  · exact filterMap_eq_iff fun f _ => hnested f

/-- A window whose list is right hands over nothing of an earlier one. -/
theorem Window.leftover_of_log (hlog : (logged step s.reset input echo d 400).map measured =
    pulses noise upp (samples input d) 394) : leftover s input d = [] := by
  rw [h.log s] at hlog
  rw [List.eq_nil_iff_forall_not_mem]
  intro e he
  have hzero := h.leftover_distance s e he
  have hpos := pulses_distance e (hlog ▸ List.mem_append_left _ he)
  omega

theorem Window.runs_of_log (hlog : (logged step s.reset input echo d 400).map measured =
    pulses noise upp (samples input d) 394) : ∀ f < 394, falls (samples input d) f = true →
      falls (samples input d) (f + 2) = true →
        valid noise upp (ones (samples input d) f) = false ∧ valid noise upp 1 = false := by
  have hnil := h.leftover_of_log s hlog
  rw [h.log s, hnil, List.nil_append] at hlog
  exact pulses_eq_iff.mp hlog

/-- **The pulses of a return.** What `time_en` hands over in a return are the valid maximal runs with
their widths and distances exactly where the return is spared. -/
theorem pulses_iff_spared (hreturns : Returns input) :
    (logged step s.reset input echo d 400).map measured =
        pulses noise upp (samples input d) 394 ↔
      Spared input d noise upp := by
  constructor
  · intro hlog
    exact ⟨(h.leftover_iff s hreturns).mp (h.leftover_of_log s hlog), h.runs_of_log s hlog⟩
  · intro hspared
    rw [h.log s, (h.leftover_iff s hreturns).mpr hspared.left, List.nil_append]
    exact pulses_eq_iff.mpr hspared.runs

end Condition

end Window

/-! ### Two returns -/

/-- All registers at zero. -/
def blank : State :=
  ⟨(false, false), 0, false, 0, 0, false, 0, 0, 0, false, false, 0, false, false, false, 0, 0, 0⟩

/-- One return with the samples `bit`. -/
def oneReturn (bit : ℕ → Bool) (t : ℕ) : Input where
  q := bit t
  dataEn := decide (t < 400)
  noiseCnt := 5
  uppWith := 100

theorem window_oneReturn (bit : ℕ → Bool) : Window (oneReturn bit) 0 5 100 where
  before t ht := absurd ht (Nat.not_lt_zero t)
  dataEn k hk := by simp [oneReturn, hk]
  noiseCnt _ _ := rfl
  uppWith _ _ := rfl

theorem returns_oneReturn (bit : ℕ → Bool) : Returns (oneReturn bit) := by
  intro t ht
  refine ⟨0, 5, 100, window_oneReturn bit, Nat.zero_le t, ?_⟩
  simpa [oneReturn] using ht

/-- Two pulses of ten and of twenty samples. -/
def twoPulses (t : ℕ) : Bool := (20 ≤ t && t < 30) || (50 ≤ t && t < 70)

theorem spared_twoPulses : Spared (oneReturn twoPulses) 0 5 100 where
  left d₀ _ _ h := absurd h.le (by omega)
  runs := by decide +kernel

theorem pulses_twoPulses :
    (logged step blank.reset (oneReturn twoPulses) echo 0 400).map measured =
      [(10, 1875), (20, 4500)] :=
  ((pulses_iff_spared (window_oneReturn twoPulses) blank (returns_oneReturn twoPulses)).mpr
    spared_twoPulses).trans (by decide +kernel)

/-- A pulse of ten samples, and one sample more after a gap of one. -/
def glitched (t : ℕ) : Bool := (20 ≤ t && t < 30) || t == 31

/-- The pulse of ten samples is lost. -/
theorem pulse_lost :
    ¬ ∀ (s : State) (input : ℕ → Input) (d : ℕ) (noise upp : BitVec 8), Returns input →
      Window input d noise upp → noise.toNat < upp.toNat →
        (logged step s.reset input echo d 400).map measured =
          pulses noise upp (samples input d) 394 := by
  intro h
  have hwindow := window_oneReturn glitched
  have hlog := h blank (oneReturn glitched) 0 5 100 (returns_oneReturn glitched) hwindow (by decide)
  have hruns := hwindow.runs_of_log blank hlog 30 (by decide) (by decide) (by decide)
  exact absurd hruns.1 (by decide)

end SingleScan.PeakDiv
