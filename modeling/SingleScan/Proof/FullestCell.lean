import SingleScan.Proof.Report
import Mathlib.Data.Finset.Max
import Mathlib.Data.Nat.Find

/-!
# The fullest cell, and its mean

The scan finds the first of the fullest cells, unless the word that the port still holds from an earlier
window is as full: it comes before cell 0 and is taken for it. The sums of a cell that is reported, with
a neighbour or without, divide to a distance between the bounds of these cells.
-/

namespace SingleScan.Readout

open Clocked GridDivision

/-! ### The place of the fullest cell -/

section Place

variable (validNumThreshold : BitVec 8) (held : BitVec 48) (cells : BitVec 8 → BitVec 48)

/-- Cell `i` is the first of the fullest ones before cell 80. -/
structure First (i : ℕ) : Prop where
  lt : i < 80
  max : ∀ j < 80, count cells j ≤ count cells i
  first : ∀ j < i, count cells j < count cells i

/-- Cell 80 counts the shots without an echo. It is taken if it is fuller than the others, and these have
less than `VALID_NUM_THRESHOLD` distances. -/
def Peak (p : ℕ) : Prop :=
  ∃ i, First cells i ∧
    p = if count cells i < count cells 80 ∧ count cells i < validNumThreshold.toNat then 80 else i

/-- The word that the port still holds does not matter: some cell is fuller, cell 80 is taken in any case,
or cell 0 is found anyway. -/
def Unmasked : Prop :=
  ∃ i, First cells i ∧
    ((number held).toNat < count cells i ∨
      (number held).toNat < count cells 80 ∧ (number held).toNat < validNumThreshold.toNat ∨
        i = 0 ∧ ¬ (count cells 0 < count cells 80 ∧ count cells 0 < validNumThreshold.toNat))

variable {validNumThreshold held cells}

theorem First.unique {i j : ℕ} (hi : First cells i) (hj : First cells j) : i = j := by
  rcases Nat.lt_trichotomy i j with hlt | heq | hlt
  · exact absurd (hi.max j hj.lt) (Nat.not_le.mpr (hj.first i hlt))
  · exact heq
  · exact absurd (hj.max i hi.lt) (Nat.not_le.mpr (hi.first j hlt))

theorem exists_first (cells : BitVec 8 → BitVec 48) : ∃ i, First cells i := by
  have hfound : ∃ i, i < 80 ∧ ∀ j < 80, count cells j ≤ count cells i := by
    obtain ⟨i, hi, hmax⟩ := Finset.exists_max_image (Finset.range 80) (count cells) ⟨0, by simp⟩
    exact ⟨i, Finset.mem_range.mp hi, fun j hj => hmax j (Finset.mem_range.mpr hj)⟩
  obtain ⟨hlt, hmax⟩ := Nat.find_spec hfound
  refine ⟨Nat.find hfound, hlt, hmax, fun j hj => ?_⟩
  have hnot := Nat.find_min hfound hj
  by_contra hle
  exact hnot ⟨by omega, fun m hm => (hmax m hm).trans (Nat.not_lt.mp hle)⟩

theorem fullest_of_first {i : ℕ} (hi : First cells i) (h81 : count cells 81 = 0) :
    (fullest validNumThreshold held cells 82).2 =
      if (number held).toNat < count cells i then
        if count cells i < count cells 80 ∧ count cells i < validNumThreshold.toNat then 80 else i
      else if (number held).toNat < count cells 80 ∧ (number held).toNat < validNumThreshold.toNat
      then 80
      else 0 := by
  have h80 : fullest validNumThreshold held cells 80 =
      if (number held).toNat < count cells i then (count cells i, i)
      else ((number held).toNat, 0) :=
    Scan.fullest_of_first hi.lt (fun j hj v => by simp [hj]) hi.max hi.first
  have hlast : fullest validNumThreshold held cells 82 = fullest validNumThreshold held cells 81 := by
    rw [fullest_succ, h81, if_neg fun htakes => absurd htakes.1 (Nat.not_lt_zero _)]
  have htakes : (fullest validNumThreshold held cells 80).1 < count cells 80 ∧
        (80 < 80 || (fullest validNumThreshold held cells 80).1 < validNumThreshold.toNat) = true ↔
      (fullest validNumThreshold held cells 80).1 < count cells 80 ∧
        (fullest validNumThreshold held cells 80).1 < validNumThreshold.toNat := by simp
  have hnext : fullest validNumThreshold held cells 81 =
      if (fullest validNumThreshold held cells 80).1 < count cells 80 ∧
          (fullest validNumThreshold held cells 80).1 < validNumThreshold.toNat then
        (count cells 80, 80)
      else fullest validNumThreshold held cells 80 := (fullest_succ 80).trans (if_congr htakes rfl rfl)
  by_cases hheld : (number held).toNat < count cells i
  · rw [if_pos hheld] at h80 ⊢
    rw [hlast, hnext, h80, apply_ite Prod.snd]
  · rw [if_neg hheld] at h80 ⊢
    rw [hlast, hnext, h80, apply_ite Prod.snd]

/-- **The place that the scan finds**, against the place of the fullest cell. -/
theorem peak_iff_unmasked (h81 : count cells 81 = 0) :
    Peak validNumThreshold cells (fullest validNumThreshold held cells 82).2 ↔
      Unmasked validNumThreshold held cells := by
  obtain ⟨i, hi⟩ := exists_first cells
  have hlt := hi.lt
  have hscan := @fullest_of_first validNumThreshold held cells i hi h81
  have hzero := hi.max 0 (by decide)
  constructor
  · rintro ⟨j, hj, hplace⟩
    obtain rfl := hj.unique hi
    refine ⟨j, hj, ?_⟩
    rw [hscan] at hplace
    by_cases hheld : (number held).toNat < count cells j
    · exact .inl hheld
    · rw [if_neg hheld] at hplace
      split at hplace
      · rename_i htaken
        exact .inr (.inl htaken)
      · split at hplace
        · exact absurd hplace (by decide)
        · rename_i hnot
          subst hplace
          exact .inr (.inr ⟨rfl, hnot⟩)
  · rintro ⟨j, hj, hfree⟩
    obtain rfl := hj.unique hi
    refine ⟨j, hj, hscan.trans ?_⟩
    by_cases hheld : (number held).toNat < count cells j
    · rw [if_pos hheld]
    · rw [if_neg hheld]
      rcases hfree with hless | htaken | ⟨rfl, hnot⟩
      · exact absurd hless hheld
      · rw [if_pos htaken, if_pos ⟨by omega, by omega⟩]
      · rw [if_neg hnot, if_neg fun htaken => hnot ⟨by omega, by omega⟩]

end Place

/-- **The fullest cell of a window.** If the cells behind cell 80 are empty and the window is left alone
until the cells have been read again, the place is that of the fullest cell from the end of the scan up to
the report, exactly if the word that the port still holds does not matter. -/
theorem place_iff_unmasked (divide : BitVec 24 → BitVec 9 → BitVec 24) {input : ℕ → Input} {w : ℕ}
    {written : Bool} {validNumThreshold : BitVec 8} (hopens : Opens divide input w)
    (h : Calm input 92 w written validNumThreshold)
    (hempty : ∀ n, 80 < n → n < 256 → count (contents divide input w written) n = 0) :
    (∀ k, 87 ≤ k → k ≤ 112 → Peak validNumThreshold (contents divide input w written)
        (run divide input (w + k)).statistical.maxRangePointPos.toNat) ↔
      Unmasked validNumThreshold (held divide input w written) (contents divide input w written) := by
  have hlt : (best divide input w written validNumThreshold).2 < 82 := fullest_place_lt (by decide)
  have hplace {k : ℕ} (hlo : 87 ≤ k) (hhi : k ≤ 112) :
      (run divide input (w + k)).statistical.maxRangePointPos.toNat =
        (best divide input w written validNumThreshold).2 := by
    obtain ⟨n, rfl⟩ : ∃ n, k = n + 86 := ⟨k - 86, by omega⟩
    obtain ⟨-, hpos⟩ := shows_again hopens h
      ((hempty 82 (by decide) (by decide)).trans_le (Nat.zero_le _))
      (fun _ => (hempty 255 (by decide) (by decide)).trans_le (Nat.zero_le _)) (n := n) (by omega)
    rw [hpos, BitVec.toNat_ofNat, Nat.mod_eq_of_lt (by omega)]
  rw [← peak_iff_unmasked (hempty 81 (by decide) (by decide))]
  constructor
  · intro hall
    have hpeak := hall 87 le_rfl (by decide)
    rwa [hplace le_rfl (by decide)] at hpeak
  · intro hpeak k hlo hhi
    rwa [hplace hlo hhi]

theorem place_oneCell :
    Unmasked 10 (held quotient (oneCell thirty 1) 2 true) (contents quotient (oneCell thirty 1) 2 true) ∧
      ∀ k, 87 ≤ k → k ≤ 112 → Peak 10 (contents quotient (oneCell thirty 1) 2 true)
        (run quotient (oneCell thirty 1) (2 + k)).statistical.maxRangePointPos.toNat := by
  obtain ⟨hcells, hheld⟩ := contents_oneCell thirty
  have hempty (n : ℕ) (hlo : 80 < n) (hhi : n < 256) :
      count (contents quotient (oneCell thirty 1) 2 true) n = 0 := by
    have hne : BitVec.ofNat 8 n ≠ 5 := by
      rw [Ne, ← BitVec.toNat_inj, BitVec.toNat_ofNat, Nat.mod_eq_of_lt hhi]
      change ¬ n = 5
      omega
    rw [count, hcells, Function.update_of_ne hne]
    rfl
  have hfirst : First (Function.update (fun _ => 0) 5 thirty) 5 :=
    ⟨by decide, by decide +kernel, by decide +kernel⟩
  have hfree : Unmasked 10 (held quotient (oneCell thirty 1) 2 true)
      (contents quotient (oneCell thirty 1) 2 true) := by
    rw [hcells, hheld]
    exact ⟨5, hfirst, .inl (by decide +kernel)⟩
  exact ⟨hfree, (place_iff_unmasked quotient (opens_oneCell thirty)
    ((undisturbed_oneCell thirty 1).calm (by decide)) hempty).mpr hfree⟩

/-- A window of `tannis1` with cells 40 and 41, that is cut short behind its report; then a window with
cell 40 alone. -/
def masked (c : ℕ) : Input where
  zeroFlag := c == 0
  tannisChange := decide (1 ≤ c ∧ c < 124 ∨ 304 ≤ c)
  validNumThreshold := 10
  correctPulseWidth := 0
  left bank :=
    { rden := false
      wren := !bank && (c == 0 || c == 1 || c == 250 || c == 251)
      addr := if c = 0 ∨ c = 250 then 40 else 41
      data :=
        if c = 0 then 0x00001e000000
        else if c = 1 then 0x000019000000
        else if c = 250 then 0x000014000000
        else 0 }

theorem opens_masked : Opens quotient masked 2 := ⟨rfl, rfl⟩

theorem undisturbed_masked : Undisturbed masked 2 true 10 0 where
  tannisChange k hk := by
    simp only [masked, decide_eq_true_eq]
    omega
  left k hk := by
    simp only [masked, Bool.and_eq_false_iff, Bool.or_eq_false_iff, beq_eq_false_iff_ne]
    omega
  validNumThreshold _ _ := rfl
  correctPulseWidth _ _ := rfl

theorem waits_masked {c : ℕ} (hlo : 181 ≤ c) (hhi : c ≤ 305) :
    (run quotient masked c).statistical.cs = .start1 := by
  induction c, hlo using Nat.le_induction with
  | base =>
      have hclock : 181 = 2 + 179 := rfl
      rw [hclock]
      exact cs_eq_start1 opens_masked rfl
  | succ c hlo ih =>
      obtain ⟨d, rfl⟩ : ∃ d, c = d + 2 := ⟨c - 2, by omega⟩
      have hsame : (run quotient masked (d + 2)).statistical.changed = false := by
        have hbefore : (masked d).tannisChange = false := decide_eq_false (by omega)
        have hnow : (masked (d + 1)).tannisChange = false := decide_eq_false (by omega)
        rw [changed_add_two, hbefore, hnow]
        rfl
      have hnext : (run quotient masked (d + 2 + 1)).statistical.cs =
          (run quotient masked (d + 2)).statistical.ns (masked (d + 2)).zeroFlag := rfl
      rw [hnext, GridStatistical.Control.ns, ih (by omega)]
      simp [hsame]

theorem bank_masked (w : ℕ) :
    contents quotient masked w true = ((run quotient masked w).gridRam false).cells ∧
      held quotient masked w true = ((run quotient masked (w + 1)).gridRam false).latchB := ⟨rfl, rfl⟩

theorem ports_masked {c : ℕ} (hlo : 93 ≤ c) (hhi : c ≤ 305) :
    (run quotient masked c).statistical.rightRden false = false ∧
      (181 < c → (run quotient masked c).statistical.rightWren false = false) := by
  obtain ⟨d, rfl⟩ : ∃ d, c = d + 1 := ⟨c - 1, by omega⟩
  have hrden : (run quotient masked (d + 1)).statistical.rightRden false =
      (false != (masked d).tannisChange &&
        ((run quotient masked d).statistical.cs == .count ||
          (run quotient masked d).statistical.cs == .reRead ||
          (run quotient masked d).statistical.cs == .reset)) := rfl
  have hwren : (run quotient masked (d + 1)).statistical.rightWren false =
      (false != (masked d).tannisChange && (run quotient masked d).statistical.cs == .clear) := rfl
  refine ⟨?_, fun hlate => ?_⟩
  · rw [hrden]
    rcases Nat.lt_or_ge d 124 with hearly | hlate
    · obtain ⟨k, rfl⟩ : ∃ k, d = 2 + k := ⟨d - 2, by omega⟩
      have hasks := asks opens_masked (k := k) (by omega)
      have hreset : ((run quotient masked (2 + k)).statistical.cs == .reset) = false := by
        rw [beq_eq_false_iff_ne, Ne, (at_of_opens opens_masked (k := k) (by omega)).cs_eq_reset]
        omega
      rw [hasks, hreset, Bool.or_false, decide_eq_false (by omega), Bool.and_false]
    · rcases Nat.lt_or_ge d 304 with hlow | hhigh
      · have hwritten : (masked d).tannisChange = false := decide_eq_false (by omega)
        rw [hwritten]
        rfl
      · rw [waits_masked (by omega) (by omega)]
        exact Bool.and_false _
  · rw [hwren, waits_masked (by omega) (by omega)]
    exact Bool.and_false _

/-- The word behind the fullest cell of the first window is held up to the second. -/
theorem held_masked : held quotient masked 305 true = 0x000019000000 := by
  have hcells : contents quotient masked 2 true =
      Function.update (Function.update (fun _ => 0) 40 0x00001e000000) 41 0x000019000000 := rfl
  have hheld : held quotient masked 2 true = 0 := rfl
  have hlast : ((run quotient masked 93).gridRam false).latchB = 0x000019000000 := by
    have hagain := latchB_again opens_masked (undisturbed_masked.calm (by decide)) (n := 2) (by decide)
    have hbest : (best quotient masked 2 true 10).2 = 40 := by
      rw [best, hcells, hheld]
      decide +kernel
    rw [hbest, hcells] at hagain
    exact hagain
  have hkeep : ∀ c, 93 ≤ c → c ≤ 306 →
      ((run quotient masked c).gridRam false).latchB = 0x000019000000 := by
    intro c hlo hhi
    induction c, hlo using Nat.le_induction with
    | base => exact hlast
    | succ c hlo ih =>
        have hread : ((run quotient masked (c + 1)).gridRam false).latchB =
            if (run quotient masked c).statistical.rightRden false then
              GridRam.write ((run quotient masked c).gridRam false).cells
                ((run quotient masked c).rightPort false) ((run quotient masked c).rightPort false).addr
            else ((run quotient masked c).gridRam false).latchB := rfl
        rw [hread, (ports_masked hlo (by omega)).1, if_neg Bool.false_ne_true, ih (by omega)]
  rw [(bank_masked 305).2]
  exact hkeep (305 + 1) (by decide) le_rfl

theorem contents_masked :
    contents quotient masked 305 true = Function.update (fun _ => 0) 40 0x000014000000 := by
  have hothers (a : BitVec 8) (h40 : a ≠ 40) (h41 : a ≠ 41) (c : ℕ) :
      ((run quotient masked c).gridRam false).cells a = 0 := by
    induction c with
    | zero => rfl
    | succ c ih =>
        have haddr : ¬ (((masked c).left false).wren = true ∧ a = ((masked c).left false).addr) := by
          rintro ⟨-, ha⟩
          simp only [masked] at ha
          split at ha
          · exact h40 ha
          · exact h41 ha
        rw [cells_succ, if_neg haddr, ih, ite_self]
  have hkeep (a : BitVec 8) {c₀ : ℕ} (hc₀ : 250 < c₀) {data : BitVec 48}
      (hstart : ((run quotient masked c₀).gridRam false).cells a = data) (c : ℕ) (hlo : c₀ ≤ c)
      (hquiet : ∀ d, c₀ ≤ d → d < c → ((masked d).left false).wren = true →
        a ≠ ((masked d).left false).addr) (hhi : c ≤ 305) :
      ((run quotient masked c).gridRam false).cells a = data := by
    induction c, hlo using Nat.le_induction with
    | base => exact hstart
    | succ c hlo ih =>
        have hright := (ports_masked (c := c) (by omega) (by omega)).2 (by omega)
        rw [cells_succ, if_neg fun hw => Bool.false_ne_true (hright.symm.trans hw.1),
          if_neg fun hw => hquiet c hlo (Nat.lt_succ_self c) hw.1 hw.2]
        exact ih (fun d hd hlt => hquiet d hd (by omega)) (by omega)
  have h40 : ((run quotient masked 251).gridRam false).cells 40 = 0x000014000000 := by
    have hright := (ports_masked (c := 250) (by decide) (by decide)).2 (by decide)
    rw [cells_succ quotient masked 250, if_neg fun hw => Bool.false_ne_true (hright.symm.trans hw.1)]
    exact if_pos ⟨rfl, rfl⟩
  have h41 : ((run quotient masked 252).gridRam false).cells 41 = 0 := by
    have hright := (ports_masked (c := 251) (by decide) (by decide)).2 (by decide)
    rw [cells_succ quotient masked 251, if_neg fun hw => Bool.false_ne_true (hright.symm.trans hw.1)]
    exact if_pos ⟨rfl, rfl⟩
  have hlast (d : ℕ) (hd : 252 ≤ d) : ((masked d).left false).wren = false := by
    simp only [masked, Bool.and_eq_false_iff, Bool.or_eq_false_iff, beq_eq_false_iff_ne]
    omega
  rw [(bank_masked 305).1]
  funext a
  by_cases ha40 : a = 40
  · subst ha40
    refine (hkeep 40 (by decide) h40 305 (by decide) (fun d hd _ hwren => ?_) le_rfl).trans rfl
    rcases Nat.eq_or_lt_of_le hd with rfl | hlate
    · decide
    · exact absurd ((hlast d hlate).symm.trans hwren) Bool.false_ne_true
  · rw [Function.update_of_ne ha40]
    by_cases ha41 : a = 41
    · subst ha41
      refine hkeep 41 (by decide) h41 305 (by decide) (fun d hd _ hwren => ?_) le_rfl
      exact absurd ((hlast d hd).symm.trans hwren) Bool.false_ne_true
    · exact hothers a ha40 ha41 305

theorem opens_masked_second : Opens quotient masked 305 where
  cs := waits_masked (by decide) le_rfl
  changed := changed_add_two quotient masked 303

theorem undisturbed_masked_second : Undisturbed masked 305 true 10 0 where
  tannisChange k hk := by
    simp only [masked, decide_eq_true_eq]
    omega
  left k hk := by
    simp only [masked, Bool.and_eq_false_iff, Bool.or_eq_false_iff, beq_eq_false_iff_ne]
    omega
  validNumThreshold _ _ := rfl
  correctPulseWidth _ _ := rfl

/-- **A cell with twenty distances is passed over** for a word with twenty-five that an earlier window has
left. -/
theorem place_masked :
    ¬ ∀ (divide : BitVec 24 → BitVec 9 → BitVec 24) (input : ℕ → Input) (w : ℕ) (written : Bool)
        (validNumThreshold correctPulseWidth : BitVec 8), Opens divide input w →
      Undisturbed input w written validNumThreshold correctPulseWidth →
        (∀ n, 80 < n → n < 256 → count (contents divide input w written) n = 0) →
          ∀ k, 87 ≤ k → k ≤ 112 → Peak validNumThreshold (contents divide input w written)
            (run divide input (w + k)).statistical.maxRangePointPos.toNat := by
  intro hall
  have hempty (n : ℕ) (hlo : 80 < n) (hhi : n < 256) :
      count (contents quotient masked 305 true) n = 0 := by
    have hne : BitVec.ofNat 8 n ≠ 40 := by
      rw [Ne, ← BitVec.toNat_inj, BitVec.toNat_ofNat, Nat.mod_eq_of_lt hhi]
      change ¬ n = 40
      omega
    rw [count, contents_masked, Function.update_of_ne hne]
    rfl
  have hpeaks := hall quotient masked 305 true 10 0 opens_masked_second undisturbed_masked_second
    hempty
  obtain ⟨i, hi, hfree⟩ := (place_iff_unmasked quotient opens_masked_second
    (undisturbed_masked_second.calm (by decide)) hempty).mp hpeaks
  rw [held_masked, contents_masked] at hfree
  rw [contents_masked] at hi
  have hfirst : First (Function.update (fun _ => 0) 40 0x000014000000) 40 :=
    ⟨by decide, by decide +kernel, by decide +kernel⟩
  obtain rfl := hi.unique hfirst
  exact absurd hfree (by decide +kernel)

end SingleScan.Readout
