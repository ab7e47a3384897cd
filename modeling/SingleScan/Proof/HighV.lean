import Mathlib.Tactic.Ring
import SingleScan.HighV

/-!
# The code of the voltage

Four clocks behind a temperature the code is a function of it. On either side of `POINT_TEM` the product
of slope and difference is cut to twelve bits, and the sum to ten. Up to the first cut the code rises
with the temperature; there it jumps back, and on the cold side a difference below zero jumps to `MAX`.
-/

namespace SingleScan

/-! ### The temperature words -/

/-- `{2'd0, sign, 5'd0, magnitude}`. -/
def reading (sign : Bool) (magnitude : BitVec 8) : BitVec 16 :=
  0#2 ++ BitVec.ofBool sign ++ 0#5 ++ magnitude

/-- The temperature that a word stands for. -/
def degrees (sign : Bool) (magnitude : BitVec 8) : ℤ :=
  if sign then -(magnitude.toNat : ℤ) else magnitude.toNat

theorem exists_degrees {t : ℤ} (hlow : -255 ≤ t) (hhigh : t ≤ 255) :
    ∃ sign magnitude, degrees sign magnitude = t := by
  refine ⟨decide (t < 0), BitVec.ofNat 8 t.natAbs, ?_⟩
  have hmagnitude : (BitVec.ofNat 8 t.natAbs).toNat = t.natAbs := by
    rw [BitVec.toNat_ofNat]
    omega
  unfold degrees
  rw [hmagnitude]
  by_cases hnegative : t < 0
  · rw [decide_eq_true hnegative, if_pos rfl]
    omega
  · rw [decide_eq_false hnegative, if_neg Bool.false_ne_true]
    omega

namespace HighV

open Clocked

/-! ### The steady code -/

/-- The state after `t` clocks, from the reset on. -/
def run (input : ℕ → Input) (t : ℕ) : State := trace step State.reset input t

theorem run_succ (input : ℕ → Input) (t : ℕ) : run input (t + 1) = step (run input t) (input t) := rfl

/-- The settings are `c` and the temperature is `w`, long enough for the code to settle. -/
structure Held (input : ℕ → Input) (c : Settings) (w : BitVec 16) (t : ℕ) : Prop where
  settings : ∀ u, t ≤ u → u < t + 4 → (input u).settings = c
  temperature : ∀ u, t ≤ u → u < t + 3 → (run input u).temCountM = w

/-- Some run settles at the output `out` for the temperature `w`. -/
def Shows (c : Settings) (w out : BitVec 16) : Prop :=
  ∃ input t, Held input c w t ∧ (run input (t + 4)).daCount = out

/-- `da_count` as a function of the temperature. -/
def Settings.code (c : Settings) (w : BitVec 16) : BitVec 16 :=
  c.daCount (c.daCountM w (mulP ((c.temChange w).setWidth 10) c.temK)
    (mulP ((c.temChange w).setWidth 10) c.temKH))

theorem Held.daCount_eq {input : ℕ → Input} {c : Settings} {w : BitVec 16} {t : ℕ}
    (hheld : Held input c w t) : (run input (t + 4)).daCount = c.code w := by
  obtain ⟨hsettings, htemperature⟩ := hheld
  have hchange : (run input (t + 1)).temChange = c.temChange w := by
    rw [run_succ, step, hsettings t le_rfl (by omega), htemperature t le_rfl (by omega)]
  have hproduct : (run input (t + 2)).daCountChange =
      mulP ((c.temChange w).setWidth 10) c.temK := by
    rw [run_succ, step, hsettings (t + 1) (by omega) (by omega), hchange]
  have hproductH : (run input (t + 2)).daCountChangeH =
      mulP ((c.temChange w).setWidth 10) c.temKH := by
    rw [run_succ, step, hsettings (t + 1) (by omega) (by omega), hchange]
  rw [run_succ, step, hsettings (t + 3) (by omega) (by omega), run_succ, step,
    hsettings (t + 2) (by omega) (by omega), htemperature (t + 2) (by omega) (by omega), hproduct,
    hproductH, Settings.code]

/-- A temperature that has come with the first rise of `m_axis_tvalid`. -/
def steady (c : Settings) (w : BitVec 16) (_ : ℕ) : Input where
  mAxisTvalid := true
  temCount := w
  settings := c

theorem held_steady (c : Settings) (w : BitVec 16) : Held (steady c w) c w 2 where
  settings _ _ _ := rfl
  temperature u hle hlt := by
    obtain rfl | rfl | rfl : u = 2 ∨ u = 3 ∨ u = 4 := by omega
    all_goals rfl

theorem shows_iff (c : Settings) (w out : BitVec 16) : Shows c w out ↔ out = c.code w := by
  constructor
  · rintro ⟨input, t, hheld, rfl⟩
    exact hheld.daCount_eq
  · rintro rfl
    exact ⟨steady c w, 2, held_steady c w, (held_steady c w).daCount_eq⟩

/-! ### The code in numbers -/

/-- The ten bits of the code in `da_count`. -/
def dacCode (out : BitVec 16) : ℕ := out.toNat / 4

/-- The settings that are let through. -/
structure Settings.Accepted (c : Settings) : Prop where
  initialCount : 200 ≤ c.initialCount.toNat ∧ c.initialCount.toNat ≤ 680
  temK : 20 ≤ c.temK.toNat ∧ c.temK.toNat ≤ 45
  temKH : 20 ≤ c.temKH.toNat ∧ c.temKH.toNat ≤ 45
  pointTem : c.pointTem.toNat ≤ 50

/-- An eighth of the product with a slope, as far as the registers hold it. -/
def cut (k d : ℕ) : ℕ := k * (d % 256) % 4096 / 8

/-- The code `d` degrees below `POINT_TEM`. -/
def Settings.cold (c : Settings) (d : ℕ) : ℕ :=
  min ((c.initialCount.toNat + 1024 - cut c.temK.toNat d) % 1024) (c.initialCount.toNat + 240)

/-- The code `d` degrees above `POINT_TEM`. -/
def Settings.hot (c : Settings) (d : ℕ) : ℕ :=
  min ((c.initialCount.toNat + cut c.temKH.toNat d) % 1024) (c.initialCount.toNat + 240)

section Numbers

variable {c : Settings} {sign : Bool} {magnitude : BitVec 8} {d : ℕ}

theorem reading_sign (sign : Bool) (magnitude : BitVec 8) :
    (reading sign magnitude).getLsbD 13 = sign := by
  rw [reading, BitVec.getLsbD_append, BitVec.getLsbD_append, BitVec.getLsbD_append]
  simp

theorem reading_magnitude (sign : Bool) (magnitude : BitVec 8) :
    (reading sign magnitude).extractLsb' 0 13 = magnitude.setWidth 13 := by
  apply BitVec.eq_of_getLsbD_eq
  intro i hi
  simp only [reading, BitVec.getLsbD_extractLsb', BitVec.getLsbD_append, BitVec.getLsbD_setWidth, hi,
    Nat.zero_add, decide_true, Bool.true_and]
  by_cases hlow : i < 8
  · simp [hlow]
  · have hmiddle : i - 8 < 5 := by omega
    simp [hlow, hmiddle, BitVec.getLsbD_of_ge magnitude i (by omega)]

theorem toNat_cut (temChange k : BitVec 8) :
    ((mulP (temChange.setWidth 10) k).extractLsb' 0 12 >>> 3).toNat =
      k.toNat * temChange.toNat % 4096 / 8 := by
  have hk := k.isLt
  have hchange := temChange.isLt
  have hproduct : temChange.toNat * k.toNat < 2 ^ 18 :=
    Nat.lt_of_lt_of_le (Nat.mul_lt_mul'' hchange hk) (by decide)
  simp only [mulP, BitVec.toNat_ushiftRight, BitVec.extractLsb'_toNat, BitVec.toNat_mul,
    BitVec.toNat_setWidth, Nat.shiftRight_eq_div_pow]
  rw [Nat.mod_eq_of_lt (show temChange.toNat < 2 ^ 10 by omega),
    Nat.mod_eq_of_lt (show temChange.toNat < 2 ^ 18 by omega),
    Nat.mod_eq_of_lt (show k.toNat < 2 ^ 18 by omega), Nat.mod_eq_of_lt hproduct, Nat.mul_comm,
    pow_zero, Nat.div_one]

theorem dacCode_daCount (hc : c.Accepted) (code : BitVec 10) :
    dacCode (c.daCount code) = min code.toNat (c.initialCount.toNat + 240) := by
  have hinitial := hc.initialCount
  have hmax : c.max.toNat = c.initialCount.toNat + 240 := by
    simp only [Settings.max, BitVec.toNat_add, BitVec.ofNat_eq_ofNat, BitVec.toNat_ofNat]
    omega
  have hword : ∀ b : BitVec 10, dacCode (0#4 ++ b ++ 0#2) = b.toNat := by
    intro b
    simp only [dacCode, BitVec.toNat_append, BitVec.toNat_ofNat, Nat.zero_mod, Nat.or_zero,
      Nat.shiftLeft_eq, Nat.zero_mul, Nat.zero_or]
    omega
  unfold Settings.daCount
  split
  · next h =>
    rw [BitVec.lt_def, hmax] at h
    rw [hword, min_eq_left h.le]
  · next h =>
    rw [BitVec.lt_def, hmax, not_lt] at h
    rw [hword, hmax, min_eq_right h]

theorem code_cold (hc : c.Accepted) (hd : degrees sign magnitude = c.pointTem.toNat - d) :
    dacCode (c.code (reading sign magnitude)) = c.cold d := by
  have hinitial := hc.initialCount
  have hpoint := hc.pointTem
  have hmagnitude := magnitude.isLt
  have hchange : (c.temChange (reading sign magnitude)).toNat = d % 256 := by
    unfold Settings.temChange
    simp only [reading_sign, reading_magnitude, BitVec.lt_def, BitVec.toNat_setWidth]
    unfold degrees at hd
    cases sign with
    | true =>
        simp only [if_true] at hd ⊢
        simp only [BitVec.toNat_setWidth, BitVec.toNat_add]
        omega
    | false =>
        simp only [Bool.false_eq_true, if_false] at hd ⊢
        rw [if_neg (by omega)]
        simp only [BitVec.toNat_setWidth, BitVec.toNat_sub]
        omega
  have hbranch : (reading sign magnitude).getLsbD 13 = true ∨
      (reading sign magnitude).extractLsb' 0 13 ≤ c.pointTem.setWidth 13 := by
    rw [reading_sign, reading_magnitude, BitVec.le_def, BitVec.toNat_setWidth, BitVec.toNat_setWidth]
    unfold degrees at hd
    cases sign with
    | true => exact .inl rfl
    | false =>
        simp only [Bool.false_eq_true, if_false] at hd
        right
        omega
  rw [Settings.code, dacCode_daCount hc, Settings.daCountM, if_pos hbranch, Settings.cold, cut]
  congr 1
  rw [BitVec.toNat_setWidth, BitVec.toNat_sub, toNat_cut, hchange, BitVec.toNat_setWidth]
  have hsmall : c.temK.toNat * (d % 256) % 4096 / 8 < 512 := by omega
  omega

theorem code_hot (hc : c.Accepted) (hpos : 0 < d)
    (hd : degrees sign magnitude = c.pointTem.toNat + d) :
    dacCode (c.code (reading sign magnitude)) = c.hot d := by
  have hinitial := hc.initialCount
  have hpoint := hc.pointTem
  have hmagnitude := magnitude.isLt
  have hsign : sign = false := by
    unfold degrees at hd
    cases sign with
    | true => simp only [if_true] at hd; omega
    | false => rfl
  subst hsign
  simp only [degrees, Bool.false_eq_true, if_false] at hd
  have hchange : (c.temChange (reading false magnitude)).toNat = d % 256 := by
    unfold Settings.temChange
    simp only [reading_sign, reading_magnitude, BitVec.lt_def, BitVec.toNat_setWidth,
      Bool.false_eq_true, if_false]
    rw [if_pos (by omega)]
    simp only [BitVec.toNat_setWidth, BitVec.toNat_sub]
    omega
  have hbranch : ¬((reading false magnitude).getLsbD 13 = true ∨
      (reading false magnitude).extractLsb' 0 13 ≤ c.pointTem.setWidth 13) := by
    rw [reading_sign, reading_magnitude, BitVec.le_def, BitVec.toNat_setWidth, BitVec.toNat_setWidth]
    simp only [Bool.false_eq_true, false_or]
    omega
  rw [Settings.code, dacCode_daCount hc, Settings.daCountM, if_neg hbranch, Settings.hot, cut]
  congr 1
  rw [BitVec.toNat_setWidth, BitVec.toNat_add, toNat_cut, hchange, BitVec.toNat_setWidth]
  have hsmall : c.temKH.toNat * (d % 256) % 4096 / 8 < 512 := by omega
  omega

end Numbers

/-! ### Up to the first cut -/

/-- From here on a product with the slope below `POINT_TEM` does not fit, or is more than there is to
take away from. -/
def Settings.coldLimit (c : Settings) : ℕ := min 4096 (8 * (c.initialCount.toNat + 1))

/-- From here on a product with the slope above `POINT_TEM`, or the sum with it, does not fit. -/
def Settings.hotLimit (c : Settings) : ℕ := min 4096 (8 * (1024 - c.initialCount.toNat))

section Limits

variable {c : Settings} {k d : ℕ}

theorem cut_eq (hk : 20 ≤ k) (hfits : k * d < 4096) : cut k d = k * d / 8 := by
  have hd : d < 256 := by
    by_contra hlarge
    have := Nat.mul_le_mul hk (Nat.le_of_not_lt hlarge)
    omega
  rw [cut, Nat.mod_eq_of_lt hd, Nat.mod_eq_of_lt hfits]

theorem cold_eq (hc : c.Accepted) (hd : c.temK.toNat * d < c.coldLimit) :
    c.cold d = c.initialCount.toNat - c.temK.toNat * d / 8 := by
  have hinitial := hc.initialCount
  rw [Settings.coldLimit, Nat.lt_min] at hd
  rw [Settings.cold, cut_eq hc.temK.1 hd.1]
  omega

theorem hot_eq (hc : c.Accepted) (hd : c.temKH.toNat * d < c.hotLimit) :
    c.hot d = min (c.initialCount.toNat + c.temKH.toNat * d / 8) (c.initialCount.toNat + 240) := by
  rw [Settings.hotLimit, Nat.lt_min] at hd
  rw [Settings.hot, cut_eq hc.temKH.1 hd.1, Nat.mod_eq_of_lt (by omega)]

theorem cold_le (hc : c.Accepted) (hd : c.temK.toNat * d < c.coldLimit) :
    c.cold d ≤ c.initialCount.toNat := by
  rw [cold_eq hc hd]
  exact Nat.sub_le _ _

theorem cold_zero (hc : c.Accepted) : c.cold 0 = c.initialCount.toNat := by
  have hinitial := hc.initialCount
  have hzero : c.temK.toNat * 0 < c.coldLimit := by
    rw [Settings.coldLimit, Nat.lt_min]
    omega
  rw [cold_eq hc hzero]
  omega

theorem exists_first (hk : 20 ≤ k) (hk' : k ≤ 45) {limit : ℕ} (hpos : 0 < limit)
    (hlimit : limit ≤ 4096) :
    ∃ q < 205, k * q < limit ∧ limit ≤ k * (q + 1) ∧ k * (q + 1) < limit + 45 := by
  have hsplit := Nat.div_add_mod (limit - 1) k
  have hrest := Nat.mod_lt (limit - 1) (show 0 < k by omega)
  refine ⟨(limit - 1) / k, ?_, ?_⟩
  · have hless := Nat.div_le_div_left hk (show 0 < 20 by decide) (a := limit - 1)
    omega
  · rw [Nat.mul_add, Nat.mul_one]
    generalize k * ((limit - 1) / k) = m at hsplit
    omega

/-- **The cold cut.** The first degree beyond the limit has a higher code than the one above it, or than
`POINT_TEM`. -/
theorem cold_breaks (hc : c.Accepted) :
    ∃ q, c.temK.toNat * q < c.coldLimit ∧ c.coldLimit ≤ c.temK.toNat * (q + 1) ∧
      (c.cold q < c.cold (q + 1) ∨ c.cold 0 < c.cold (q + 1)) := by
  have hinitial := hc.initialCount
  have hk := hc.temK
  have hlimit : c.coldLimit ≤ 4096 := Nat.min_le_left _ _
  have hpos : 0 < c.coldLimit := by
    rw [Settings.coldLimit, Nat.lt_min]
    omega
  obtain ⟨q, hq, hbelow, habove, hnear⟩ := exists_first hk.1 hk.2 hpos hlimit
  refine ⟨q, hbelow, habove, ?_⟩
  have hvalue : c.cold (q + 1) = min ((c.initialCount.toNat + 1024 -
      c.temK.toNat * (q + 1) % 4096 / 8) % 1024) (c.initialCount.toNat + 240) := by
    rw [Settings.cold, cut, Nat.mod_eq_of_lt (show q + 1 < 256 by omega)]
  have hlast := cold_eq hc hbelow
  have hstep : c.temK.toNat * (q + 1) = c.temK.toNat * q + c.temK.toNat := Nat.mul_succ _ _
  rw [cold_zero hc, hlast, hvalue]
  generalize c.temK.toNat * (q + 1) = high at *
  generalize c.temK.toNat * q = low at *
  rw [Settings.coldLimit] at habove hbelow hnear
  by_cases hproduct : 4096 ≤ high
  · -- The product is cut: the code is next to that of `POINT_TEM` again.
    left
    have hrest : high % 4096 / 8 ≤ 5 := by omega
    have heighth : 506 ≤ low / 8 ∧ low / 8 ≤ c.initialCount.toNat := by omega
    generalize high % 4096 / 8 = rest at hrest
    generalize low / 8 = eighth at heighth
    have hback : (c.initialCount.toNat + 1024 - rest) % 1024 = c.initialCount.toNat - rest := by omega
    rw [hback]
    omega
  · -- The difference is below zero and comes out above `MAX`.
    right
    have hwhole : high % 4096 = high := Nat.mod_eq_of_lt (by omega)
    rw [hwhole]
    omega

/-- **The hot cut.** The first degree beyond the limit has a lower code than the one below it, or than
`POINT_TEM`. -/
theorem hot_breaks (hc : c.Accepted) :
    ∃ q, c.temKH.toNat * q < c.hotLimit ∧ c.hotLimit ≤ c.temKH.toNat * (q + 1) ∧ 0 < q ∧
      (c.hot (q + 1) < c.hot q ∨ c.hot (q + 1) < c.cold 0) := by
  have hinitial := hc.initialCount
  have hk := hc.temKH
  have hlimit : c.hotLimit ≤ 4096 := Nat.min_le_left _ _
  have hlarge : 8 * 344 ≤ c.hotLimit := by
    rw [Settings.hotLimit, Nat.le_min]
    omega
  obtain ⟨q, hq, hbelow, habove, hnear⟩ := exists_first hk.1 hk.2 (by omega) hlimit
  have hpos : 0 < q := by
    rcases Nat.eq_zero_or_pos q with rfl | hpos
    · rw [Nat.zero_add, Nat.mul_one] at habove
      omega
    · exact hpos
  refine ⟨q, hbelow, habove, hpos, ?_⟩
  have hvalue : c.hot (q + 1) = min ((c.initialCount.toNat +
      c.temKH.toNat * (q + 1) % 4096 / 8) % 1024) (c.initialCount.toNat + 240) := by
    rw [Settings.hot, cut, Nat.mod_eq_of_lt (show q + 1 < 256 by omega)]
  have hlast := hot_eq hc hbelow
  have hstep : c.temKH.toNat * (q + 1) = c.temKH.toNat * q + c.temKH.toNat := Nat.mul_succ _ _
  rw [cold_zero hc, hlast, hvalue]
  generalize c.temKH.toNat * (q + 1) = high at *
  generalize c.temKH.toNat * q = low at *
  rw [Settings.hotLimit] at habove hbelow hnear
  by_cases hproduct : 4096 ≤ high
  · left
    have hrest : high % 4096 / 8 ≤ 5 := by omega
    have heighth : 506 ≤ low / 8 := by omega
    generalize high % 4096 / 8 = rest at hrest
    generalize low / 8 = eighth at heighth
    have hback : (c.initialCount.toNat + rest) % 1024 = c.initialCount.toNat + rest := by omega
    rw [hback]
    omega
  · -- The sum has lost its eleventh bit.
    right
    have hwhole : high % 4096 = high := Nat.mod_eq_of_lt (by omega)
    rw [hwhole]
    omega

end Limits

/-! ### A range of temperatures -/

/-- From `lo` to `hi` degrees, the code does not fall with the temperature and does not exceed
`INITIAL_COUNT + 240`. -/
def Rises (c : Settings) (lo hi : ℤ) : Prop :=
  ∀ s₁ m₁ s₂ m₂ out₁ out₂, Shows c (reading s₁ m₁) out₁ → Shows c (reading s₂ m₂) out₂ →
    lo ≤ degrees s₁ m₁ → degrees s₁ m₁ ≤ degrees s₂ m₂ → degrees s₂ m₂ ≤ hi →
      dacCode out₁ ≤ dacCode out₂ ∧ dacCode out₁ ≤ c.initialCount.toNat + 240 ∧
        dacCode out₂ ≤ c.initialCount.toNat + 240

section Range

variable {c : Settings} {lo hi : ℤ}

theorem exists_shows_cold (hc : c.Accepted) {d : ℕ} (hlow : -255 ≤ (c.pointTem.toNat : ℤ) - d) :
    ∃ s m out, degrees s m = c.pointTem.toNat - d ∧ Shows c (reading s m) out ∧
      dacCode out = c.cold d := by
  have hpoint := hc.pointTem
  obtain ⟨s, m, hdegrees⟩ := exists_degrees hlow (by omega)
  exact ⟨s, m, _, hdegrees, (shows_iff c _ _).2 rfl, code_cold hc hdegrees⟩

theorem exists_shows_hot (hc : c.Accepted) {d : ℕ} (hpos : 0 < d)
    (hhigh : (c.pointTem.toNat : ℤ) + d ≤ 255) :
    ∃ s m out, degrees s m = c.pointTem.toNat + d ∧ Shows c (reading s m) out ∧
      dacCode out = c.hot d := by
  obtain ⟨s, m, hdegrees⟩ := exists_degrees (by omega) hhigh
  exact ⟨s, m, _, hdegrees, (shows_iff c _ _).2 rfl, code_hot hc hpos hdegrees⟩

/-- A degree of the range is below `POINT_TEM` or above it, and within the limits if the range is. -/
theorem code_cases (hc : c.Accepted) (hcold : c.temK.toNat * (c.pointTem.toNat - lo) < c.coldLimit)
    (hhot : c.temKH.toNat * (hi - c.pointTem.toNat) < c.hotLimit) {s : Bool} {m : BitVec 8}
    (hlo : lo ≤ degrees s m) (hhi : degrees s m ≤ hi) :
    (∃ d : ℕ, degrees s m = c.pointTem.toNat - d ∧ c.temK.toNat * d < c.coldLimit ∧
        dacCode (c.code (reading s m)) = c.cold d) ∨
      ∃ d : ℕ, 0 < d ∧ degrees s m = c.pointTem.toNat + d ∧ c.temKH.toNat * d < c.hotLimit ∧
        dacCode (c.code (reading s m)) = c.hot d := by
  by_cases hbelow : degrees s m ≤ c.pointTem.toNat
  · left
    obtain ⟨d, hd⟩ := Int.eq_ofNat_of_zero_le (show 0 ≤ (c.pointTem.toNat : ℤ) - degrees s m by omega)
    have hdegrees : degrees s m = c.pointTem.toNat - d := by omega
    refine ⟨d, hdegrees, ?_, code_cold hc hdegrees⟩
    have hle : (c.temK.toNat : ℤ) * d ≤ c.temK.toNat * (c.pointTem.toNat - lo) :=
      Int.mul_le_mul_of_nonneg_left (by omega) (Int.natCast_nonneg _)
    exact_mod_cast hle.trans_lt hcold
  · right
    obtain ⟨d, hd⟩ := Int.eq_ofNat_of_zero_le (show 0 ≤ degrees s m - (c.pointTem.toNat : ℤ) by omega)
    have hdegrees : degrees s m = c.pointTem.toNat + d := by omega
    have hpos : 0 < d := by omega
    refine ⟨d, hpos, hdegrees, ?_, code_hot hc hpos hdegrees⟩
    have hle : (c.temKH.toNat : ℤ) * d ≤ c.temKH.toNat * (hi - c.pointTem.toNat) :=
      Int.mul_le_mul_of_nonneg_left (by omega) (Int.natCast_nonneg _)
    exact_mod_cast hle.trans_lt hhot

theorem rises_of_limits (hc : c.Accepted)
    (hcold : c.temK.toNat * (c.pointTem.toNat - lo) < c.coldLimit)
    (hhot : c.temKH.toNat * (hi - c.pointTem.toNat) < c.hotLimit) : Rises c lo hi := by
  intro s₁ m₁ s₂ m₂ out₁ out₂ hshows₁ hshows₂ hlo hle hhi
  rw [(shows_iff c _ _).1 hshows₁, (shows_iff c _ _).1 hshows₂]
  have hmax : ∀ w, dacCode (c.code w) ≤ c.initialCount.toNat + 240 := by
    intro w
    rw [Settings.code, dacCode_daCount hc]
    exact Nat.min_le_right _ _
  refine ⟨?_, hmax _, hmax _⟩
  rcases code_cases hc hcold hhot hlo (hle.trans hhi) with ⟨d₁, ht₁, hd₁, heq₁⟩ |
      ⟨d₁, hpos₁, ht₁, hd₁, heq₁⟩ <;>
    rcases code_cases hc hcold hhot (hlo.trans hle) hhi with ⟨d₂, ht₂, hd₂, heq₂⟩ |
      ⟨d₂, hpos₂, ht₂, hd₂, heq₂⟩
  · rw [heq₁, heq₂, cold_eq hc hd₁, cold_eq hc hd₂]
    have hd : d₂ ≤ d₁ := by omega
    exact Nat.sub_le_sub_left (Nat.div_le_div_right (Nat.mul_le_mul_left _ hd)) _
  · rw [heq₁, heq₂, hot_eq hc hd₂]
    have hbelow := cold_le hc hd₁
    omega
  · omega
  · rw [heq₁, heq₂, hot_eq hc hd₁, hot_eq hc hd₂]
    have hd : d₁ ≤ d₂ := by omega
    have heighth : c.temKH.toNat * d₁ / 8 ≤ c.temKH.toNat * d₂ / 8 :=
      Nat.div_le_div_right (Nat.mul_le_mul_left _ hd)
    omega

theorem cold_of_rises (hc : c.Accepted) (hrises : Rises c lo hi) (hlo : -255 ≤ lo)
    (hhi : c.pointTem.toNat ≤ hi) :
    c.temK.toNat * (c.pointTem.toNat - lo) < c.coldLimit := by
  by_contra hbeyond
  obtain ⟨q, hbelow, -, hbreak⟩ := cold_breaks hc
  have hq : (q : ℤ) < c.pointTem.toNat - lo := by
    by_contra hlarge
    have hle : (c.temK.toNat : ℤ) * (c.pointTem.toNat - lo) ≤ c.temK.toNat * q :=
      Int.mul_le_mul_of_nonneg_left (by omega) (Int.natCast_nonneg _)
    have hbelow' : (c.temK.toNat : ℤ) * q < c.coldLimit := by exact_mod_cast hbelow
    omega
  obtain ⟨s₁, m₁, out₁, ht₁, hshows₁, hcode₁⟩ :=
    exists_shows_cold hc (d := q + 1) (by push_cast; omega)
  push_cast at ht₁
  rcases hbreak with hbreak | hbreak
  · obtain ⟨s₂, m₂, out₂, ht₂, hshows₂, hcode₂⟩ := exists_shows_cold hc (d := q) (by omega)
    have hle := (hrises s₁ m₁ s₂ m₂ out₁ out₂ hshows₁ hshows₂ (by omega) (by omega) (by omega)).1
    omega
  · obtain ⟨s₂, m₂, out₂, ht₂, hshows₂, hcode₂⟩ := exists_shows_cold hc (d := 0) (by omega)
    have hle := (hrises s₁ m₁ s₂ m₂ out₁ out₂ hshows₁ hshows₂ (by omega) (by omega) (by omega)).1
    omega

theorem hot_of_rises (hc : c.Accepted) (hrises : Rises c lo hi) (hlo : lo ≤ c.pointTem.toNat)
    (hhi : hi ≤ 255) :
    c.temKH.toNat * (hi - c.pointTem.toNat) < c.hotLimit := by
  by_contra hbeyond
  obtain ⟨q, hbelow, -, hpos, hbreak⟩ := hot_breaks hc
  have hq : (q : ℤ) < hi - c.pointTem.toNat := by
    by_contra hlarge
    have hle : (c.temKH.toNat : ℤ) * (hi - c.pointTem.toNat) ≤ c.temKH.toNat * q :=
      Int.mul_le_mul_of_nonneg_left (by omega) (Int.natCast_nonneg _)
    have hbelow' : (c.temKH.toNat : ℤ) * q < c.hotLimit := by exact_mod_cast hbelow
    omega
  obtain ⟨s₂, m₂, out₂, ht₂, hshows₂, hcode₂⟩ :=
    exists_shows_hot hc (d := q + 1) (Nat.succ_pos q) (by push_cast; omega)
  push_cast at ht₂
  rcases hbreak with hbreak | hbreak
  · obtain ⟨s₁, m₁, out₁, ht₁, hshows₁, hcode₁⟩ := exists_shows_hot hc hpos (by omega)
    have hle := (hrises s₁ m₁ s₂ m₂ out₁ out₂ hshows₁ hshows₂ (by omega) (by omega) (by omega)).1
    omega
  · obtain ⟨s₁, m₁, out₁, ht₁, hshows₁, hcode₁⟩ := exists_shows_cold hc (d := 0) (by omega)
    have hle := (hrises s₁ m₁ s₂ m₂ out₁ out₂ hshows₁ hshows₂ (by omega) (by omega) (by omega)).1
    omega

/-- **Where the code rises.** Over a range of temperatures around `POINT_TEM`, exactly as long as no end
of it is beyond its limit. -/
theorem rises_iff (hc : c.Accepted) (hlo : -255 ≤ lo) (hlow : lo ≤ c.pointTem.toNat)
    (hhigh : c.pointTem.toNat ≤ hi) (hhi : hi ≤ 255) :
    Rises c lo hi ↔
      c.temK.toNat * (c.pointTem.toNat - lo) < (min 4096 (8 * (c.initialCount.toNat + 1)) : ℕ) ∧
        c.temKH.toNat * (hi - c.pointTem.toNat) < (min 4096 (8 * (1024 - c.initialCount.toNat)) : ℕ) :=
  ⟨fun hrises => ⟨cold_of_rises hc hrises hlo hhigh, hot_of_rises hc hrises hlow hhi⟩,
    fun ⟨hcold, hhot⟩ => rises_of_limits hc hcold hhot⟩

/-- The sensor can say more than any slope can bear. -/
theorem not_rises_sensor (hc : c.Accepted) : ¬Rises c (-255) 255 := by
  intro hrises
  have hpoint := hc.pointTem
  have hlimit := cold_of_rises hc hrises le_rfl (by omega)
  have hcut : c.coldLimit ≤ 4096 := Nat.min_le_left _ _
  have hproduct : (20 : ℤ) * 255 ≤ c.temK.toNat * (c.pointTem.toNat - -255) := by
    have hk := hc.temK.1
    calc (20 : ℤ) * 255 ≤ c.temK.toNat * 255 := by omega
      _ ≤ c.temK.toNat * (c.pointTem.toNat - -255) :=
        Int.mul_le_mul_of_nonneg_left (by omega) (Int.natCast_nonneg _)
  omega

end Range

/-- Slopes of 40 eighths around 25 degrees. -/
def typical : Settings where
  initialCount := 300
  temK := 40
  temKH := 40
  pointTem := 25

theorem typical_accepted : typical.Accepted := by
  constructor <;> decide

theorem rises_typical : typical.Accepted ∧ Rises typical (-35) 85 :=
  ⟨typical_accepted, (rises_iff typical_accepted (by decide) (by decide) (by decide) (by decide)).2
    (by decide)⟩

/-- At -36 degrees the code is `MAX`, and at 25 degrees it is not. -/
theorem falls_typical :
    typical.Accepted ∧ ∃ out₁ out₂, Shows typical (reading true 36) out₁ ∧
      Shows typical (reading false 25) out₂ ∧ degrees true 36 ≤ degrees false 25 ∧
        dacCode out₁ = 540 ∧ dacCode out₂ = 300 :=
  ⟨typical_accepted, _, _, (shows_iff _ _ _).2 rfl, (shows_iff _ _ _).2 rfl, by decide, by decide,
    by decide⟩

end HighV

end SingleScan
