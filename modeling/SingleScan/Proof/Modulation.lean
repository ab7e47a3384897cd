import SingleScan.CompaValue

/-!
# The correction for the light

The nine settings are let through one by one, and nothing compares them. The correction is what it is
meant to be if `da_cycle_para5` is at least 10 above `da_cycle_para9`, the code not below
`da_cycle_para9`, and the distance not less than the correction.
-/

namespace SingleScan.Modulation

open Clocked CompaValue

variable {divide : BitVec 16 → BitVec 16 → BitVec 16} {input : ℕ → Input}

/-- The state after `t` clocks, from the reset on. -/
def run (divide : BitVec 16 → BitVec 16 → BitVec 16) (input : ℕ → Input) (t : ℕ) : State :=
  trace (step divide) State.reset input t

/-! ### The codes -/

/-- The code of the word, `dac_value[11:4]`. -/
def code (dacValue : BitVec 16) : BitVec 8 := dacValue.extractLsb' 4 8

/-- The settings that a register may hold before clock `t`: those of the reset, or those of some clock. -/
def Source (input : ℕ → Input) (t : ℕ) (paras : BitVec 90) : Prop :=
  paras = dacRegReset ∨ ∃ u < t, paras = (input u).compa.daCyclePara

/-- `dac_reg` holds nine settings, turned around. -/
def Turned (dacReg paras : BitVec 90) : Prop :=
  ∀ n, 1 ≤ n → n ≤ 9 → ∃ m, 1 ≤ m ∧ m ≤ 9 ∧ daCyclePara dacReg n = daCyclePara paras m

/-- A turn puts the highest setting at the lowest place. -/
theorem Turned.turn {dacReg paras : BitVec 90} (hturned : Turned dacReg paras) :
    Turned (dacReg.extractLsb' 0 80 ++ dacReg.extractLsb' 80 10) paras := by
  intro n hpos hle
  have hmoved : daCyclePara (dacReg.extractLsb' 0 80 ++ dacReg.extractLsb' 80 10) n =
      daCyclePara dacReg (if n = 1 then 9 else n - 1) := by
    apply BitVec.eq_of_getLsbD_eq
    intro i hi
    simp only [daCyclePara, BitVec.getLsbD_extractLsb', BitVec.getLsbD_append, hi, decide_true,
      Bool.true_and]
    by_cases hfirst : n = 1
    · subst hfirst
      simp [hi]
    · have hhigh : ¬10 * (n - 1) + i < 10 := by omega
      have hin : 10 * (n - 1) + i - 10 < 80 := by omega
      have hplace : 0 + (10 * (n - 1) + i - 10) = 10 * (n - 1 - 1) + i := by omega
      simp only [hhigh, hin, hplace, hfirst, if_false, decide_true, Bool.true_and]
  rw [hmoved]
  split
  · exact hturned 9 (by decide) le_rfl
  · exact hturned (n - 1) (by omega) (by omega)

theorem Source.mono {t : ℕ} {paras : BitVec 90} (hsource : Source input t paras) :
    Source input (t + 1) paras :=
  hsource.imp_right fun ⟨u, hu, heq⟩ => ⟨u, Nat.lt_succ_of_lt hu, heq⟩

theorem exists_turned (t : ℕ) :
    ∃ paras, Source input t paras ∧ Turned (run divide input t).compa.dacReg paras := by
  induction t with
  | zero => exact ⟨dacRegReset, .inl rfl, fun n hpos hle => ⟨n, hpos, hle, rfl⟩⟩
  | succ t ih =>
      obtain ⟨paras, hsource, hturned⟩ := ih
      have hnext : (run divide input (t + 1)).compa.dacReg =
          if (run divide input t).compa.cycleSetFlag then (input t).compa.daCyclePara
          else if (run divide input t).compa.dacSet1 then
            (run divide input t).compa.dacReg.extractLsb' 0 80 ++
              (run divide input t).compa.dacReg.extractLsb' 80 10
          else (run divide input t).compa.dacReg := rfl
      rw [hnext]
      split
      · exact ⟨_, .inr ⟨t, Nat.lt_succ_self t, rfl⟩, fun n hpos hle => ⟨n, hpos, hle, rfl⟩⟩
      · split
        · exact ⟨paras, hsource.mono, hturned.turn⟩
        · exact ⟨paras, hsource.mono, hturned⟩

theorem code_dacWord (flag : Bool) (c : BitVec 8) : code (dacWord flag c) = c := by
  apply BitVec.eq_of_getLsbD_eq
  intro i hi
  have hlow : ¬4 + i < 4 := by omega
  have hin : 4 + i - 4 < 8 := by omega
  have hplace : 4 + i - 4 = i := by omega
  simp only [code, dacWord, BitVec.getLsbD_extractLsb', BitVec.getLsbD_append, hi, hlow, hplace,
    decide_true, Bool.true_and, if_false, if_true]

/-- **What the light is set to**: nothing, the codes that are built in, `CHANGE_TH_2`, or the low byte of
one of the nine settings. -/
theorem emitted (t : ℕ) :
    code (run divide input t).compa.dacValue ∈ ({0, 123, 155} : List (BitVec 8)) ∨
      (∃ u < t, code (run divide input t).compa.dacValue = (input u).compa.changeTh2) ∨
        ∃ paras n, Source input t paras ∧ 1 ≤ n ∧ n ≤ 9 ∧
          code (run divide input t).compa.dacValue = (daCyclePara paras n).setWidth 8 := by
  induction t with
  | zero =>
      have hreset : code (run divide input 0).compa.dacValue = 123 := code_dacWord false 123
      rw [hreset]
      exact .inl (by decide)
  | succ t ih =>
      have hnext : (run divide input (t + 1)).compa.dacValue =
          if (run divide input t).compa.dacSetRise && (input t).compa.laserEnable then
            dacWord false ((run divide input t).compa.dacReg.extractLsb' 0 8)
          else if (run divide input t).compa.dacSetRise && !(input t).compa.laserEnable then 0
          else if (run divide input t).compa.bCnt.toNat = 870 then dacWord true 155
          else if (run divide input t).compa.bSetFlag then dacWord true (input t).compa.changeTh2
          else (run divide input t).compa.dacValue := rfl
      rw [hnext]
      split
      · obtain ⟨paras, hsource, hturned⟩ := @exists_turned divide input t
        obtain ⟨m, hpos, hle, heq⟩ := hturned 1 le_rfl (by decide)
        refine .inr (.inr ⟨paras, m, hsource.mono, hpos, hle, ?_⟩)
        rw [code_dacWord, ← heq]
        apply BitVec.eq_of_getLsbD_eq
        intro i hi
        simp [daCyclePara, hi, show i < 10 by omega]
      · split
        · exact .inl (by decide)
        · split
          · rw [code_dacWord]
            exact .inl (by decide)
          · split
            · exact .inr (.inl ⟨t, Nat.lt_succ_self t, code_dacWord _ _⟩)
            · rcases ih with hbuilt | ⟨u, hu, heq⟩ | ⟨paras, n, hsource, hn⟩
              · exact .inl hbuilt
              · exact .inr (.inl ⟨u, Nat.lt_succ_of_lt hu, heq⟩)
              · exact .inr (.inr ⟨paras, n, hsource.mono, hn⟩)

/-! ### The correction -/

/-- A setting as a number. -/
def para (p : BitVec 90) (n : ℕ) : ℕ := (daCyclePara p n).toNat

theorem dacBase_eq (t : ℕ) :
    (run divide input (t + 1)).adjust.dacBase =
      daCyclePara (input t).compa.daCyclePara 5 - daCyclePara (input t).compa.daCyclePara 9 := rfl

theorem dacChange_eq (t : ℕ) :
    (run divide input (t + 1)).adjust.dacChange =
      (code (run divide input t).compa.dacValue).setWidth 10 -
        daCyclePara (input t).compa.daCyclePara 9 := rfl

theorem kDA_eq (t : ℕ) :
    (run divide input (t + 12)).adjust.kDA =
      divide 2400 ((run divide input t).adjust.dacBase.setWidth 16) := rfl

theorem daDistance_eq {t : ℕ} (htem : (input (t + 1)).temEn = true) :
    (run divide input (t + 2)).adjust.daDistance =
      (input (t + 1)).adDistance -
        ((mulP (run divide input t).adjust.dacChange
          ((run divide input t).adjust.kDA.setWidth 8)).setWidth 16 >>> 5).setWidth 18 := by
  have hnext : (run divide input (t + 2)).adjust.daDistance =
      if (input (t + 1)).temEn then
        (input (t + 1)).adDistance -
          ((mulP (run divide input t).adjust.dacChange
            ((run divide input t).adjust.kDA.setWidth 8)).setWidth 16 >>> 5).setWidth 18
      else (run divide input (t + 1)).adjust.daDistance := rfl
  rw [hnext, if_pos htem]

/-- The correction of the distance of clock `t + 14` is well defined. The divisor is 13 clocks old then,
the code two, and the quotient and the change of the code one. -/
structure WellDefined (divide : BitVec 16 → BitVec 16 → BitVec 16) (input : ℕ → Input) (p : BitVec 90)
    (t : ℕ) : Prop where
  divisor : (run divide input (t + 1)).adjust.dacBase ≠ 0
  base : ((run divide input (t + 1)).adjust.dacBase.toNat : ℤ) = para p 5 - para p 9
  change : ((run divide input (t + 13)).adjust.dacChange.toNat : ℤ) =
    (code (run divide input (t + 12)).compa.dacValue).toNat - para p 9
  slope : (run divide input (t + 13)).adjust.kDA.toNat < 256
  distance : ((run divide input (t + 15)).adjust.daDistance.toNat : ℤ) =
    (input (t + 14)).adDistance.toNat -
      ((run divide input (t + 13)).adjust.kDA.toNat *
        (run divide input (t + 13)).adjust.dacChange.toNat / 32 : ℕ)

theorem toNat_dacBase {p : BitVec 90} {t : ℕ} (hpara : (input t).compa.daCyclePara = p) :
    (run divide input (t + 1)).adjust.dacBase.toNat = (para p 5 + 1024 - para p 9) % 1024 := by
  have hmin : para p 9 < 1024 := (daCyclePara p 9).isLt
  rw [dacBase_eq, hpara, BitVec.toNat_sub]
  unfold para at hmin ⊢
  omega

theorem toNat_dacChange {p : BitVec 90} {t : ℕ} (hpara : (input t).compa.daCyclePara = p) :
    (run divide input (t + 1)).adjust.dacChange.toNat =
      ((code (run divide input t).compa.dacValue).toNat + 1024 - para p 9) % 1024 := by
  have hmin : para p 9 < 1024 := (daCyclePara p 9).isLt
  have hcode := (code (run divide input t).compa.dacValue).isLt
  rw [dacChange_eq, hpara, BitVec.toNat_sub, BitVec.toNat_setWidth]
  unfold para at hmin ⊢
  omega

theorem toNat_kDA (hdivide : ∀ n d : BitVec 16, d ≠ 0 → divide n d = n / d) {t : ℕ}
    (hdivisor : (run divide input (t + 1)).adjust.dacBase.toNat ≠ 0) :
    (run divide input (t + 13)).adjust.kDA.toNat =
      2400 / (run divide input (t + 1)).adjust.dacBase.toNat := by
  have hwidth : ((run divide input (t + 1)).adjust.dacBase.setWidth 16).toNat =
      (run divide input (t + 1)).adjust.dacBase.toNat := by
    have hlt := (run divide input (t + 1)).adjust.dacBase.isLt
    rw [BitVec.toNat_setWidth, Nat.mod_eq_of_lt (by omega)]
  have hne : (run divide input (t + 1)).adjust.dacBase.setWidth 16 ≠ 0 := by
    intro hzero
    rw [hzero] at hwidth
    exact hdivisor hwidth.symm
  rw [kDA_eq (t + 1), hdivide _ _ hne, BitVec.toNat_udiv, hwidth]
  rfl

/-- The distance with its correction, as long as that fits the 16 bits of its wire. -/
theorem daDistance_toNat {t : ℕ} (htem : (input (t + 14)).temEn = true)
    (hslope : (run divide input (t + 13)).adjust.kDA.toNat ≤ 240)
    (hchange : (run divide input (t + 13)).adjust.dacChange.toNat ≤ 255)
    (hbears : (run divide input (t + 13)).adjust.kDA.toNat *
      (run divide input (t + 13)).adjust.dacChange.toNat / 32 ≤ (input (t + 14)).adDistance.toNat) :
    (run divide input (t + 15)).adjust.daDistance.toNat = (input (t + 14)).adDistance.toNat -
      (run divide input (t + 13)).adjust.kDA.toNat *
        (run divide input (t + 13)).adjust.dacChange.toNat / 32 := by
  rw [daDistance_eq (t := t + 13) htem]
  generalize (run divide input (t + 13)).adjust.kDA = k at *
  generalize (run divide input (t + 13)).adjust.dacChange = steps at *
  have hproduct : k.toNat * steps.toNat ≤ 240 * 255 := Nat.mul_le_mul hslope hchange
  have hshift : ((mulP steps (k.setWidth 8)).setWidth 16 >>> 5).toNat = k.toNat * steps.toNat / 32 := by
    simp only [mulP, BitVec.toNat_ushiftRight, BitVec.toNat_setWidth, BitVec.toNat_mul,
      Nat.shiftRight_eq_div_pow]
    rw [Nat.mod_eq_of_lt (show k.toNat < 2 ^ 8 by omega),
      Nat.mod_eq_of_lt (show k.toNat < 2 ^ 18 by omega),
      Nat.mod_eq_of_lt (show steps.toNat < 2 ^ 18 by omega), Nat.mul_comm steps.toNat,
      Nat.mod_eq_of_lt (show k.toNat * steps.toNat < 2 ^ 18 by omega),
      Nat.mod_eq_of_lt (show k.toNat * steps.toNat < 2 ^ 16 by omega)]
  have hwide : (((mulP steps (k.setWidth 8)).setWidth 16 >>> 5).setWidth 18).toNat =
      k.toNat * steps.toNat / 32 := by
    rw [BitVec.toNat_setWidth, hshift, Nat.mod_eq_of_lt (by omega)]
  rw [BitVec.toNat_sub_of_le, hwide]
  rw [BitVec.le_def, hwide]
  exact hbears

/-- **The correction is well defined** when the settings are in order, the code is not below the lowest
one, and the distance bears the correction. -/
theorem wellDefined_iff (hdivide : ∀ n d : BitVec 16, d ≠ 0 → divide n d = n / d) {p : BitVec 90} {t : ℕ}
    (hpara : ∀ u, t ≤ u → u ≤ t + 12 → (input u).compa.daCyclePara = p)
    (htem : (input (t + 14)).temEn = true) :
    WellDefined divide input p t ↔
      para p 9 + 10 ≤ para p 5 ∧
        para p 9 ≤ (code (run divide input (t + 12)).compa.dacValue).toNat ∧
        2400 / (para p 5 - para p 9) *
          ((code (run divide input (t + 12)).compa.dacValue).toNat - para p 9) / 32 ≤
            (input (t + 14)).adDistance.toNat := by
  have hbase := @toNat_dacBase divide _ _ _ (hpara t le_rfl (by omega))
  have hchange := @toNat_dacChange divide _ _ _ (hpara (t + 12) (by omega) le_rfl)
  have hmax : para p 5 < 1024 := (daCyclePara p 5).isLt
  have hmin : para p 9 < 1024 := (daCyclePara p 9).isLt
  have hcode := (code (run divide input (t + 12)).compa.dacValue).isLt
  constructor
  · rintro ⟨hdivisor, hdifference, hsteps, hslope, hdistance⟩
    have hpos : (run divide input (t + 1)).adjust.dacBase.toNat ≠ 0 :=
      fun h => hdivisor (BitVec.eq_of_toNat_eq h)
    have horder : para p 9 < para p 5 := by omega
    rw [toNat_kDA hdivide hpos, show (run divide input (t + 1)).adjust.dacBase.toNat =
      para p 5 - para p 9 by omega] at hslope hdistance
    rw [show (run divide input (t + 13)).adjust.dacChange.toNat =
      (code (run divide input (t + 12)).compa.dacValue).toNat - para p 9 by omega] at hdistance
    rw [Nat.div_lt_iff_lt_mul (by omega)] at hslope
    refine ⟨by omega, by omega, ?_⟩
    omega
  · rintro ⟨horder, hlow, hbears⟩
    have hdifference : (run divide input (t + 1)).adjust.dacBase.toNat = para p 5 - para p 9 := by
      rw [hbase]
      omega
    have hsteps : (run divide input (t + 13)).adjust.dacChange.toNat =
        (code (run divide input (t + 12)).compa.dacValue).toNat - para p 9 := by
      rw [hchange]
      omega
    have hslope := @toNat_kDA divide input hdivide t (by omega)
    rw [hdifference] at hslope
    have hsmall : 2400 / (para p 5 - para p 9) ≤ 240 :=
      (Nat.div_le_div_left (show 10 ≤ para p 5 - para p 9 by omega) (by decide)).trans (by decide)
    refine ⟨?_, by omega, by omega, by omega, ?_⟩
    · intro hzero
      rw [hzero] at hdifference
      have hnone : (0 : BitVec 10).toNat = 0 := rfl
      omega
    · have henough := hbears
      rw [← hslope, ← hsteps] at henough
      rw [daDistance_toNat htem (by omega) (by omega) henough]
      omega

/-- The settings `p` with the laser on and a distance of 1000 in every clock. -/
def lit (p : BitVec 90) (_ : ℕ) : Input where
  compa := { daCyclePara := p, changeTh2 := 155, laserEnable := true }
  temEn := true
  adDistance := 1000

theorem wellDefined_reset : WellDefined (· / ·) (lit dacRegReset) dacRegReset 0 :=
  (wellDefined_iff (fun _ _ _ => rfl) (fun _ _ _ => rfl) rfl).2
    ⟨by decide, by decide +kernel, by decide +kernel⟩

/-- Nine settings of 200. -/
def level : BitVec 90 :=
  200#10 ++ 200#10 ++ 200#10 ++ 200#10 ++ 200#10 ++ 200#10 ++ 200#10 ++ 200#10 ++ 200#10

/-- Equal settings make the divisor 0. -/
theorem not_wellDefined_level :
    (run (· / ·) (lit level) 1).adjust.dacBase = 0 ∧ ¬WellDefined (· / ·) (lit level) level 0 :=
  have hzero : (run (· / ·) (lit level) 1).adjust.dacBase = 0 := rfl
  ⟨hzero, fun h => h.divisor hzero⟩

end SingleScan.Modulation
