import SingleScan.Proof.FullestCell

/-!
# A window that is cut short

`tannis_change` goes back while the cells are scanned. From there on the words come from the bank that was
being written, and if it is nearly empty the place stands, but the sums are those of empty cells.
-/

namespace SingleScan.Readout

open Clocked GridDivision

/-- Port `a` writes no cell of the bank but `q`, and no word with more than `m` distances. -/
structure Sparse (input : ℕ → Input) (bank : Bool) (q : BitVec 8) (m : ℕ) : Prop where
  addr : ∀ c, ((input c).left bank).wren = true → ((input c).left bank).addr = q
  number : ∀ c, ((input c).left bank).wren = true → (number ((input c).left bank).data).toNat ≤ m

section Sparse

variable {divide : BitVec 24 → BitVec 9 → BitVec 24} {input : ℕ → Input} {bank : Bool} {q : BitVec 8}
  {m : ℕ} (h : Sparse input bank q m)

include h

theorem Sparse.number_cells_le (c : ℕ) (a : BitVec 8) :
    (GridDivision.number (((run divide input c).gridRam bank).cells a)).toNat ≤ m := by
  induction c with
  | zero =>
      change (GridDivision.number 0).toNat ≤ m
      exact Nat.zero_le m
  | succ c ih =>
      rw [cells_succ]
      split
      · exact Nat.zero_le m
      · split
        · rename_i hwritten
          exact h.number c hwritten.1
        · exact ih

theorem Sparse.number_latchB_le (c : ℕ) :
    (GridDivision.number ((run divide input c).gridRam bank).latchB).toNat ≤ m := by
  induction c with
  | zero =>
      change (GridDivision.number 0).toNat ≤ m
      exact Nat.zero_le m
  | succ c ih =>
      rw [latchB_eq]
      split
      · split
        · exact Nat.zero_le m
        · exact h.number_cells_le c _
      · exact ih

theorem Sparse.number_qB_le (c : ℕ) :
    (GridDivision.number ((run divide input c).gridRam bank).qB).toNat ≤ m := by
  cases c with
  | zero =>
      change (GridDivision.number 0).toNat ≤ m
      exact Nat.zero_le m
  | succ c => exact h.number_latchB_le c

end Sparse

section Cut

variable {divide : BitVec 24 → BitVec 9 → BitVec 24} {input : ℕ → Input} {n w m : ℕ} {written : Bool}
  {q : BitVec 8} (hopens : Opens divide input w)
  (hcut : ∀ k, n ≤ k → k < 93 → (input (w + k)).tannisChange = !written)
  (hsparse : Sparse input written q m)
  (hfuller : m ≤ (run divide input (w + n)).statistical.curRangePointNumber.toNat)

include hopens hcut hsparse hfuller

/-- **The place at the toggle stands**, with its number. -/
theorem scan_of_cut {k : ℕ} (hlo : n ≤ k) (hhi : k ≤ 112) :
    (run divide input (w + k)).statistical.curRangePointNumber =
        (run divide input (w + n)).statistical.curRangePointNumber ∧
      (run divide input (w + k)).statistical.maxRangePointPos =
        (run divide input (w + n)).statistical.maxRangePointPos := by
  induction k, hlo using Nat.le_induction with
  | base => exact ⟨rfl, rfl⟩
  | succ k hlo ih =>
      obtain ⟨hnumber, hpos⟩ := ih (by omega)
      by_cases hword : 3 ≤ k ∧ k < 86 ∨ 89 ≤ k ∧ k < 92
      · have hvalid := valid1 hopens (k := k) (by omega)
        rw [decide_eq_true hword] at hvalid
        have hscan := scan_succ divide input (w + k)
        rw [hcut k hlo (by omega), Bool.not_not] at hscan
        have hle : (number ((run divide input (w + k)).gridRam written).qB).toNat ≤
            (run divide input (w + k)).statistical.curRangePointNumber.toNat := by
          rw [hnumber]
          exact (hsparse.number_qB_le _).trans hfuller
        rw [(GridStatistical.scanStep_of_valid (not_forget hopens (by omega)) hvalid _ _).2
          (GridStatistical.not_offered_of_le hle)] at hscan
        exact ⟨hscan.1.trans hnumber, hscan.2.trans hpos⟩
      · obtain ⟨hnumber', hpos'⟩ := scan_quiet hopens (k := k) (by omega) hword
        exact ⟨hnumber'.trans hnumber, hpos'.trans hpos⟩

end Cut

/-! ### Twenty-four distances and thirty -/

/-- A window of `tannis1` with cells 5 and 60. `tannis_change` goes back 28 clocks behind the clock in which
its toggle was seen, two clocks behind a distance that goes into cell 30 of `tannis2`. -/
def cut (c : ℕ) : Input where
  zeroFlag := c == 0
  tannisChange := decide (1 ≤ c ∧ c < 30)
  validNumThreshold := 10
  correctPulseWidth := 0
  left bank :=
    { rden := false
      wren := if bank then c == 28 else c == 0 || c == 1
      addr := if bank then 30 else if c = 0 then 5 else 60
      data :=
        if bank then 0x000001002ee0 else if c = 0 then 0x00001800bb80 else 0x00001e0afc80 }

/-- The window as it would have been. -/
def uncut (c : ℕ) : Input :=
  { cut c with tannisChange := decide (1 ≤ c) }

theorem opens_cut : Opens quotient cut 2 := ⟨rfl, rfl⟩

theorem contents_cut : contents quotient cut 2 true =
      Function.update (Function.update (fun _ => 0) 5 0x00001800bb80) 60 0x00001e0afc80 ∧
    held quotient cut 2 true = 0 := ⟨rfl, rfl⟩

theorem sparse_cut : Sparse cut true 30 1 where
  addr _ _ := rfl
  number _ _ := by
    change (number 0x000001002ee0).toNat ≤ 1
    decide

theorem calm_uncut : Calm uncut 92 2 true 10 where
  tannisChange _ _ := decide_eq_true (by omega)
  left k hk := by
    change (2 + k == 0 || 2 + k == 1) = false
    simp only [Bool.or_eq_false_iff, beq_eq_false_iff_ne]
    omega
  validNumThreshold _ _ := rfl

/-- At the toggle cell 60 has not been scanned yet. -/
theorem shows_cut : (run quotient cut (2 + 28)).statistical.Shows (24, 5) := by
  have hsame : run quotient cut (2 + 28) = run quotient uncut (2 + 28) :=
    trace_congr fun c hc => by
      have htannis : (cut c).tannisChange = (uncut c).tannisChange :=
        decide_eq_decide.2 (by omega)
      have hrest : uncut c = { cut c with tannisChange := (uncut c).tannisChange } := rfl
      rw [hrest, ← htannis]
  have hopens : Opens quotient uncut 2 := ⟨rfl, rfl⟩
  have hshows := shows_scan hopens calm_uncut (n := 24) (by decide)
  have hfullest : fullest 10 (held quotient uncut 2 true) (contents quotient uncut 2 true) 24 = (24, 5) := by
    have hheld : held quotient uncut 2 true = 0 := rfl
    have hcells : contents quotient uncut 2 true =
        Function.update (Function.update (fun _ => 0) 5 0x00001800bb80) 60 0x00001e0afc80 := rfl
    rw [hheld, hcells]
    decide +kernel
  rw [hsame, ← hfullest]
  exact hshows

theorem tannisChange_cut {k : ℕ} (hlo : 28 ≤ k) (_ : k < 93) : (cut (2 + k)).tannisChange = !true :=
  decide_eq_false (by omega)

theorem pos_cut {k : ℕ} (hlo : 28 ≤ k) (hhi : k ≤ 112) :
    (run quotient cut (2 + k)).statistical.maxRangePointPos = 5 := by
  obtain ⟨hnumber, hpos⟩ := shows_cut
  exact (scan_of_cut opens_cut (fun k => tannisChange_cut) sparse_cut
    (hnumber.symm ▸ by decide) hlo hhi).2.trans hpos

/-- **A toggle in the scan leaves cells out.** Nothing is held back from an earlier window, but cell 5 is
found, and not cell 60, which is fuller. -/
theorem place_cut :
    ¬ ∀ (divide : BitVec 24 → BitVec 9 → BitVec 24) (input : ℕ → Input) (w : ℕ)
        (validNumThreshold : BitVec 8), Opens divide input w →
      (∀ n, 80 < n → n < 256 → count (contents divide input w (input w).tannisChange) n = 0) →
        Unmasked validNumThreshold (held divide input w (input w).tannisChange)
            (contents divide input w (input w).tannisChange) →
          ∀ k, 87 ≤ k → k ≤ 112 → Peak validNumThreshold
            (contents divide input w (input w).tannisChange)
            (run divide input (w + k)).statistical.maxRangePointPos.toNat := by
  intro hall
  have hwritten : (cut 2).tannisChange = true := rfl
  obtain ⟨hcells, hheld⟩ := contents_cut
  have hfirst : First (Function.update (Function.update (fun _ => 0) 5 0x00001800bb80) 60 0x00001e0afc80) 60 :=
    ⟨by decide, by decide +kernel, by decide +kernel⟩
  have hpeak := hall quotient cut 2 10 opens_cut
    (by
      intro n hlo hhi
      rw [hwritten, hcells, count]
      have hne {a : BitVec 8} (ha : a.toNat ≤ 80) : BitVec.ofNat 8 n ≠ a := by
        rintro rfl
        rw [BitVec.toNat_ofNat, Nat.mod_eq_of_lt hhi] at ha
        omega
      rw [Function.update_of_ne (hne (by decide)), Function.update_of_ne (hne (by decide))]
      rfl)
    (by
      rw [hwritten, hcells, hheld]
      exact ⟨60, hfirst, .inl (by decide +kernel)⟩)
    87 le_rfl (by decide)
  rw [hwritten, hcells, pos_cut (by decide) (by decide)] at hpeak
  obtain ⟨i, hi, hplace⟩ := hpeak
  obtain rfl := hi.unique hfirst
  exact absurd hplace (by decide +kernel)

end SingleScan.Readout
