import SingleScan.Proof.Windows
import Mathlib.Data.Fintype.Prod

/-!
# Every accepted distance is counted once

`grid_division` takes 18 clocks from `valid_in` to the RAM: it reads the cell with the fourteenth clock,
adds with the seventeenth and writes with the nineteenth. `tannis_change` is asked again each time. If
it has not been toggled in between, and no field is full, every cell holds the sum over the distances
since it was cleared.
-/

namespace SingleScan

open Clocked

namespace Mod10

variable {divide : BitVec 24 → BitVec 9 → BitVec 24} {s : ℕ → State} {numer : ℕ → BitVec 24}
  {denom : ℕ → BitVec 9}

theorem stages_delay (hstep : ∀ c, s (c + 1) = step divide (s c) (numer c) (denom c)) (c k : ℕ)
    (hk : k < 12) : (s (c + k + 1)).stages ⟨k, hk⟩ = divide (numer c) (denom c) := by
  induction k with
  | zero => simp [hstep, step]
  | succ k ih =>
      rw [← ih (by omega), hstep]
      rfl

/-- The quotient comes twelve clocks behind its operands. -/
theorem quotient_delay (hstep : ∀ c, s (c + 1) = step divide (s c) (numer c) (denom c)) (c : ℕ) :
    (s (c + 12)).quotient = divide (numer c) (denom c) :=
  stages_delay hstep c 11 (by decide)

end Mod10

namespace GridDivision

variable {s : Control} {i : Input}

theorem Control.cs_of_step_write (h : (s.step i).cs = .write) : s.cs = .read ∧ s.stateCnt = 3 := by
  change s.ns i = .write at h
  unfold Control.ns at h
  cases hcs : s.cs <;> rw [hcs] at h <;> dsimp only at h
  case read =>
    split_ifs at h with hcnt
    exact ⟨rfl, hcnt⟩
  case write => cases h
  all_goals split_ifs at h

theorem Control.cs_of_step_read (h : (s.step i).cs = .read) :
    s.cs = .read ∧ s.stateCnt ≠ 3 ∧ (s.step i).stateCnt = s.stateCnt + 1 ∨
      s.cs = .waitGrid ∧ s.divOver = true ∧ (s.step i).stateCnt = 0 := by
  have hns : s.ns i = .read := h
  have hcnt : (s.step i).stateCnt = if s.cs ≠ .read then 0 else s.stateCnt + 1 := by
    rw [← hns]
    rfl
  rw [hcnt]
  unfold Control.ns at hns
  cases hcs : s.cs <;> rw [hcs] at hns <;> dsimp only at hns
  case read =>
    split_ifs at hns with h3
    exact .inl ⟨rfl, h3, if_neg (not_not.mpr rfl)⟩
  case waitGrid =>
    split_ifs at hns with hover
    exact .inr ⟨rfl, hover, if_pos (by decide)⟩
  case write => cases hns
  all_goals split_ifs at hns

theorem gray_zero : (gray 0).toNat = 0 := by decide

theorem number_zero : (number 0).toNat = 0 := by decide

theorem value_zero : (value 0).toNat = 0 := by decide

theorem getLsbD_fields (g : BitVec 16) (n : BitVec 8) (x : BitVec 24) (k : ℕ) :
    BitVec.getLsbD (g ++ n ++ x : BitVec 48) k =
      if k < 24 then x.getLsbD k else if k - 24 < 8 then n.getLsbD (k - 24)
      else g.getLsbD (k - 24 - 8) := by
  rw [BitVec.getLsbD_append, BitVec.getLsbD_append]

theorem gray_append (g : BitVec 16) (n : BitVec 8) (x : BitVec 24) : gray (g ++ n ++ x) = g := by
  apply BitVec.eq_of_getLsbD_eq
  intro i hi
  rw [gray, BitVec.getLsbD_extractLsb', getLsbD_fields, if_neg (by omega), if_neg (by omega)]
  have hbit : 32 + i - 24 - 8 = i := by omega
  rw [hbit, decide_eq_true hi, Bool.true_and]

theorem number_append (g : BitVec 16) (n : BitVec 8) (x : BitVec 24) :
    number (g ++ n ++ x) = n := by
  apply BitVec.eq_of_getLsbD_eq
  intro i hi
  rw [number, BitVec.getLsbD_extractLsb', getLsbD_fields, if_neg (by omega), if_pos (by omega),
    Nat.add_sub_cancel_left, decide_eq_true hi, Bool.true_and]

theorem value_append (g : BitVec 16) (n : BitVec 8) (x : BitVec 24) :
    value (g ++ n ++ x) = x := by
  apply BitVec.eq_of_getLsbD_eq
  intro i hi
  rw [value, BitVec.getLsbD_extractLsb', getLsbD_fields, if_pos (by omega), Nat.zero_add,
    decide_eq_true hi, Bool.true_and]

end GridDivision

namespace CalcDistance

open GridDivision (gray number value gray_zero number_zero value_zero gray_append number_append
  value_append)

variable {divide : BitVec 24 → BitVec 9 → BitVec 24} {input : ℕ → Input} {c : ℕ}

theorem validInR0_getLsbD (c k : ℕ) (hk : k < 32) :
    (run divide input c).division.validInR0.getLsbD k = true ↔
      k < c ∧ (input (c - 1 - k)).validIn = true := by
  induction c generalizing k with
  | zero =>
      have hzero : (run divide input 0).division.validInR0 = 0 := rfl
      simp [hzero]
  | succ c ih =>
      have hshift : (run divide input (c + 1)).division.validInR0 =
          (run divide input c).division.validInR0.setWidth 31 ++
            BitVec.ofBool (input c).validIn := rfl
      rw [hshift, BitVec.getLsbD_append]
      cases k with
      | zero => simp
      | succ k =>
          have hlt : k < 31 := by omega
          have hsub : c - 1 - k = c - (k + 1) := by omega
          simp [hlt, ih k (by omega), hsub]

theorem cs_of_write (h : (run divide input (c + 1)).division.cs = .write) :
    (run divide input c).division.cs = .read ∧ (run divide input c).division.stateCnt = 3 :=
  GridDivision.Control.cs_of_step_write h

theorem cs_of_read (h : (run divide input (c + 1)).division.cs = .read) :
    (run divide input c).division.cs = .read ∧ (run divide input c).division.stateCnt ≠ 3 ∧
        (run divide input (c + 1)).division.stateCnt =
          (run divide input c).division.stateCnt + 1 ∨
      (run divide input c).division.cs = .waitGrid ∧ (run divide input c).division.divOver = true ∧
        (run divide input (c + 1)).division.stateCnt = 0 :=
  GridDivision.Control.cs_of_step_read h

/-- `READ` takes four clocks. -/
theorem stateCnt_of_read (h : (run divide input c).division.cs = .read) :
    (run divide input c).division.stateCnt.toNat ≤ 3 := by
  induction c with
  | zero => cases h
  | succ c ih =>
      rcases cs_of_read h with ⟨hread, hne, hcnt⟩ | ⟨-, -, hcnt⟩
      · have hle := ih hread
        have hthree : (run divide input c).division.stateCnt.toNat ≠ 3 :=
          fun h => hne (BitVec.eq_of_toNat_eq h)
        have hone : (1 : BitVec 16).toNat = 1 := rfl
        rw [hcnt, BitVec.toNat_add, hone]
        omega
      · rw [hcnt]
        decide

/-- Before the count `k + 1` in `READ` there is the count `k`. -/
theorem read_pred {k : ℕ} (hcs : (run divide input (c + 1)).division.cs = .read)
    (hcnt : (run divide input (c + 1)).division.stateCnt.toNat = k + 1) :
    (run divide input c).division.cs = .read ∧
      (run divide input c).division.stateCnt.toNat = k := by
  rcases cs_of_read hcs with ⟨hread, -, hnext⟩ | ⟨-, -, hzero⟩
  · have hle := stateCnt_of_read hread
    have hone : (1 : BitVec 16).toNat = 1 := rfl
    rw [hnext, BitVec.toNat_add, hone] at hcnt
    exact ⟨hread, by omega⟩
  · rw [hzero] at hcnt
    cases hcnt

theorem read_first (hcs : (run divide input (c + 1)).division.cs = .read)
    (hcnt : (run divide input (c + 1)).division.stateCnt.toNat = 0) :
    (run divide input c).division.cs = .waitGrid ∧
      (run divide input c).division.divOver = true := by
  rcases cs_of_read hcs with ⟨hread, -, hnext⟩ | ⟨hwait, hover, -⟩
  · have hle := stateCnt_of_read hread
    have hone : (1 : BitVec 16).toNat = 1 := rfl
    rw [hnext, BitVec.toNat_add, hone] at hcnt
    omega
  · exact ⟨hwait, hover⟩

theorem exists_pred {phase : GridDivision.Phase} (h : (run divide input c).division.cs = phase)
    (hphase : phase ≠ .idle) : ∃ d, c = d + 1 := by
  cases c with
  | zero => exact absurd h.symm hphase
  | succ d => exact ⟨d, rfl⟩

/-- The states of a distance that came with clock `v` and is written with clock `v + 17`. -/
structure Reading (divide : BitVec 24 → BitVec 9 → BitVec 24) (input : ℕ → Input) (v : ℕ) : Prop where
  validIn : (input v).validIn = true
  divOver : (run divide input (v + 12)).division.divOver = true
  waitGrid : (run divide input (v + 12)).division.cs = .waitGrid
  read : ∀ k < 4, (run divide input (v + 13 + k)).division.cs = .read
  last : (run divide input (v + 16)).division.stateCnt = 3

theorem exists_reading (h : (run divide input c).division.cs = .write) :
    ∃ v, c = v + 17 ∧ Reading divide input v := by
  obtain ⟨c3, rfl⟩ := exists_pred h (by decide)
  obtain ⟨hcs3, hlast⟩ := cs_of_write h
  have hcnt3 : (run divide input c3).division.stateCnt.toNat = 3 := by
    rw [hlast]
    rfl
  obtain ⟨c2, rfl⟩ := exists_pred hcs3 (by decide)
  obtain ⟨hcs2, hcnt2⟩ := read_pred hcs3 hcnt3
  obtain ⟨c1, rfl⟩ := exists_pred hcs2 (by decide)
  obtain ⟨hcs1, hcnt1⟩ := read_pred hcs2 hcnt2
  obtain ⟨c0, rfl⟩ := exists_pred hcs1 (by decide)
  obtain ⟨hcs0, hcnt0⟩ := read_pred hcs1 hcnt1
  obtain ⟨w, rfl⟩ := exists_pred hcs0 (by decide)
  obtain ⟨hwait, hover⟩ := read_first hcs0 hcnt0
  obtain ⟨hlt, hvalid⟩ := (validInR0_getLsbD w 11 (by decide)).mp hover
  obtain ⟨v, rfl⟩ : ∃ v, w = v + 12 := ⟨w - 12, by omega⟩
  have hclock : v + 12 - 1 - 11 = v := by omega
  rw [hclock] at hvalid
  refine ⟨v, rfl, hvalid, hover, hwait, fun k hk => ?_, hlast⟩
  match k, hk with
  | 0, _ => exact hcs0
  | 1, _ => exact hcs1
  | 2, _ => exact hcs2
  | 3, _ => exact hcs3

/-- The distance of clock `v` is read and written: `READ` is followed by `WRITE`. -/
def Accepted (divide : BitVec 24 → BitVec 9 → BitVec 24) (input : ℕ → Input) (v : ℕ) : Prop :=
  (run divide input (v + 17)).division.cs = .write

theorem Accepted.reading {v : ℕ} (h : Accepted divide input v) : Reading divide input v := by
  obtain ⟨v', hclock, hreading⟩ := exists_reading h
  obtain rfl : v = v' := by omega
  exact hreading

/-- The distances are twenty clocks apart, and stand for so long. -/
structure Samples (input : ℕ → Input) : Prop where
  apart : ∀ c d, c < d → (input c).validIn = true → (input d).validIn = true → c + 20 ≤ d
  held : ∀ v, (input v).validIn = true → ∀ c, v ≤ c → c < v + 20 →
    (input c).distanceIn = (input v).distanceIn ∧ (input c).grayIn = (input v).grayIn

/-- A cell of a bank before clock `c`. -/
def cell (divide : BitVec 24 → BitVec 9 → BitVec 24) (input : ℕ → Input) (c : ℕ) (bank : Bool)
    (addr : BitVec 8) : BitVec 48 :=
  ((run divide input c).gridRam bank).cells addr

/-- The cell that the distance of clock `v` is read from. -/
def Reads (divide : BitVec 24 → BitVec 9 → BitVec 24) (input : ℕ → Input) (v : ℕ) (bank : Bool)
    (addr : BitVec 8) : Prop :=
  (run divide input (v + 13)).division.leftRden bank = true ∧
    (run divide input (v + 13)).division.leftAddr (input (v + 13)).toDivision = addr

/-- With clock `d` an accepted distance of this cell is due in the RAM. -/
def Lands (divide : BitVec 24 → BitVec 9 → BitVec 24) (input : ℕ → Input) (bank : Bool)
    (addr : BitVec 8) (d : ℕ) : Prop :=
  ∃ v, d = v + 18 ∧ Accepted divide input v ∧ Reads divide input v bank addr

/-- With clock `e` the cell is cleared. -/
def Cleared (divide : BitVec 24 → BitVec 9 → BitVec 24) (input : ℕ → Input) (bank : Bool)
    (addr : BitVec 8) (e : ℕ) : Prop :=
  (run divide input e).statistical.rightWren bank = true ∧
    (run divide input e).statistical.rightAddr bank = addr

section Reading

variable {v : ℕ}

/-- The address of a distance stands from the reading to the writing of its cell. -/
theorem leftAddr_of_reading (hsamples : Samples input) (h : Reading divide input v) {k : ℕ}
    (hlo : 13 ≤ k) (hhi : k ≤ 18) :
    (run divide input (v + k)).division.leftAddr (input (v + k)).toDivision =
      (run divide input (v + 13)).division.leftAddr (input (v + 13)).toDivision := by
  have hquotient (c : ℕ) : (run divide input (c + 12)).division.gridAddr.quotient =
      divide ((input c).distanceIn.setWidth 24) 400 :=
    @Mod10.quotient_delay divide (fun c => (run divide input c).division.gridAddr)
      (fun c => (input c).distanceIn.setWidth 24) (fun _ => 400) (fun _ => rfl) c
  have haddr (k : ℕ) (hlo : 13 ≤ k) (hhi : k ≤ 18) :
      (run divide input (v + k)).division.leftAddr (input (v + k)).toDivision =
        if (input v).distanceIn = 0xffff then 80
        else ((divide ((input v).distanceIn.setWidth 24) 400).setWidth 9).setWidth 8 := by
    have hnow := (hsamples.held v h.validIn (v + k) (by omega) (by omega)).1
    have hbefore := (hsamples.held v h.validIn (v + (k - 12)) (by omega) (by omega)).1
    have hclock : v + k = v + (k - 12) + 12 := by omega
    have hq : (run divide input (v + k)).division.gridAddr.quotient =
        divide ((input v).distanceIn.setWidth 24) 400 := by
      rw [hclock, hquotient, hbefore]
    have hin : (input (v + k)).toDivision.distanceIn = (input v).distanceIn := hnow
    rw [GridDivision.State.leftAddr, hin, hq]
  rw [haddr k hlo hhi, haddr 13 le_rfl (by omega)]

theorem leftWren_succ (c : ℕ) (bank : Bool) :
    (run divide input (c + 1)).division.leftWren bank =
      (bank == written divide input c && (run divide input c).division.cs == .write) := rfl

theorem leftRden_succ (c : ℕ) (bank : Bool) :
    (run divide input (c + 1)).division.leftRden bank =
      (bank == written divide input c && (run divide input c).division.divOver &&
        (run divide input c).division.cs != .waitMotor) := rfl

theorem rightWren_succ (c : ℕ) (bank : Bool) :
    (run divide input (c + 1)).statistical.rightWren bank =
      (bank != written divide input c && (run divide input c).statistical.cs == .clear) := rfl

theorem cell_succ (c : ℕ) (bank : Bool) (addr : BitVec 8) :
    cell divide input (c + 1) bank addr =
      GridRam.write (GridRam.write ((run divide input c).gridRam bank).cells
        ((run divide input c).leftPort (input c) bank)) ((run divide input c).rightPort bank) addr :=
  rfl

theorem cell_zero (bank : Bool) (addr : BitVec 8) : cell divide input 0 bank addr = 0 := rfl

theorem cell_of_cleared {c : ℕ} {bank : Bool} {addr : BitVec 8}
    (h : Cleared divide input bank addr c) : cell divide input (c + 1) bank addr = 0 := by
  obtain ⟨hwren, rfl⟩ := h
  rw [cell_succ]
  simp [GridRam.write, State.rightPort, hwren]

theorem cell_of_not_cleared {c : ℕ} {bank : Bool} {addr : BitVec 8}
    (h : ¬ Cleared divide input bank addr c) : cell divide input (c + 1) bank addr =
      GridRam.write ((run divide input c).gridRam bank).cells
        ((run divide input c).leftPort (input c) bank) addr := by
  rw [cell_succ]
  unfold GridRam.write
  cases hwren : ((run divide input c).rightPort bank).wren with
  | false => rfl
  | true =>
      have haddr : addr ≠ ((run divide input c).rightPort bank).addr :=
        fun heq => h ⟨hwren, heq.symm⟩
      rw [if_pos rfl, Function.update_of_ne haddr]

/-- A cell that is neither cleared nor written keeps its content. -/
theorem cell_keep {c : ℕ} {bank : Bool} {addr : BitVec 8} (h : ¬ Cleared divide input bank addr c)
    (hleft : ¬ ((run divide input c).division.leftWren bank = true ∧
      (run divide input c).division.leftAddr (input c).toDivision = addr)) :
    cell divide input (c + 1) bank addr = cell divide input c bank addr := by
  rw [cell_of_not_cleared h]
  unfold GridRam.write
  cases hwren : ((run divide input c).leftPort (input c) bank).wren with
  | false => rfl
  | true =>
      have haddr : addr ≠ ((run divide input c).leftPort (input c) bank).addr :=
        fun heq => hleft ⟨hwren, heq.symm⟩
      rw [if_pos rfl, Function.update_of_ne haddr]
      rfl

theorem cell_written {c : ℕ} {bank : Bool} {addr : BitVec 8}
    (h : ¬ Cleared divide input bank addr c)
    (hwren : (run divide input c).division.leftWren bank = true)
    (haddr : (run divide input c).division.leftAddr (input c).toDivision = addr) :
    cell divide input (c + 1) bank addr = (run divide input c).division.leftWrdata bank := by
  rw [cell_of_not_cleared h, ← haddr]
  simp [GridRam.write, State.leftPort, hwren]

theorem reads_iff (h : Reading divide input v) (bank : Bool) (addr : BitVec 8) :
    Reads divide input v bank addr ↔ bank = written divide input (v + 12) ∧
      (run divide input (v + 13)).division.leftAddr (input (v + 13)).toDivision = addr := by
  rw [Reads, leftRden_succ (v + 12), h.divOver, h.waitGrid]
  simp

/-- With the last clock of `READ` the cell is at the output of the RAM. -/
theorem qA_of_reading (hsamples : Samples input) (h : Reading divide input v) {addr : BitVec 8}
    (haddr : (run divide input (v + 13)).division.leftAddr (input (v + 13)).toDivision = addr) :
    ((run divide input (v + 16)).gridRam (written divide input (v + 12))).qA =
      cell divide input (v + 13) (written divide input (v + 12)) addr := by
  have hrden : (run divide input (v + 13)).division.leftRden (written divide input (v + 12)) =
      true := ((reads_iff h _ _).mpr ⟨rfl, rfl⟩).1
  have hwren : (run divide input (v + 13)).division.leftWren (written divide input (v + 12)) =
      false := by
    rw [leftWren_succ (v + 12), h.waitGrid]
    simp
  have hquiet : (run divide input (v + 14)).division.leftRden (written divide input (v + 12)) =
      false := by
    have hover : (run divide input (v + 13)).division.divOver = false := by
      rw [Bool.eq_false_iff, Ne, GridDivision.Control.divOver, validInR0_getLsbD _ _ (by decide)]
      rintro ⟨-, hvalid⟩
      have := hsamples.apart v (v + 13 - 1 - 11) (by omega) h.validIn hvalid
      omega
    rw [leftRden_succ (v + 13), hover]
    simp
  have hq : ((run divide input (v + 16)).gridRam (written divide input (v + 12))).qA =
      ((run divide input (v + 15)).gridRam (written divide input (v + 12))).latchA := rfl
  have hkeep : ((run divide input (v + 15)).gridRam (written divide input (v + 12))).latchA =
      ((run divide input (v + 14)).gridRam (written divide input (v + 12))).latchA := by
    have hport : ((run divide input (v + 15)).gridRam (written divide input (v + 12))).latchA =
        GridRam.read ((run divide input (v + 14)).gridRam (written divide input (v + 12))).cells
          ((run divide input (v + 14)).leftPort (input (v + 14)) (written divide input (v + 12)))
          ((run divide input (v + 14)).gridRam (written divide input (v + 12))).latchA := rfl
    rw [hport]
    simp [GridRam.read, State.leftPort, hquiet]
  have hread : ((run divide input (v + 14)).gridRam (written divide input (v + 12))).latchA =
      cell divide input (v + 13) (written divide input (v + 12)) addr := by
    have hport : ((run divide input (v + 14)).gridRam (written divide input (v + 12))).latchA =
        GridRam.read ((run divide input (v + 13)).gridRam (written divide input (v + 12))).cells
          ((run divide input (v + 13)).leftPort (input (v + 13)) (written divide input (v + 12)))
          ((run divide input (v + 13)).gridRam (written divide input (v + 12))).latchA := rfl
    rw [hport]
    simp [GridRam.read, GridRam.write, State.leftPort, hrden, hwren, haddr, cell]
  rw [hq, hkeep, hread]

section Bank

variable (hbank : ∀ T, v + 12 < T → T ≤ v + 17 → ¬ Toggle divide input T)

include hbank

theorem written_of_reading {k : ℕ} (hlo : 12 ≤ k) (hhi : k ≤ 17) :
    written divide input (v + k) = written divide input (v + 12) :=
  eq_of_not_toggled (by omega) fun T hlt hle => hbank T hlt (by omega)

/-- Nobody touches the bank from the reading to the writing of the cell. -/
theorem cell_of_reading (h : Reading divide input v) (addr : BitVec 8) {k : ℕ} (hk : k ≤ 5) :
    cell divide input (v + 13 + k) (written divide input (v + 12)) addr =
      cell divide input (v + 13) (written divide input (v + 12)) addr := by
  induction k with
  | zero => rfl
  | succ k ih =>
      have hsame : written divide input (v + 12 + k) = written divide input (v + 12) := by
        rw [Nat.add_assoc]
        exact written_of_reading hbank (by omega) (by omega)
      have hclock : v + 13 + k = v + 12 + k + 1 := by omega
      have hright : (run divide input (v + 13 + k)).statistical.rightWren
          (written divide input (v + 12)) = false := by
        rw [hclock, rightWren_succ, hsame, bne_self_eq_false, Bool.false_and]
      have hleft : (run divide input (v + 13 + k)).division.leftWren
          (written divide input (v + 12)) = false := by
        have hcs : ((run divide input (v + 12 + k)).division.cs == .write) = false := by
          cases k with
          | zero =>
              rw [Nat.add_zero, h.waitGrid]
              rfl
          | succ k =>
              have hread : v + 12 + (k + 1) = v + 13 + k := by omega
              rw [hread, h.read k (by omega)]
              rfl
        rw [hclock, leftWren_succ, hcs, Bool.and_false]
      rw [← ih (by omega)]
      refine cell_keep (fun hcleared => ?_) (fun hwritten => ?_)
      · exact Bool.false_ne_true (hright.symm.trans hcleared.1)
      · exact Bool.false_ne_true (hleft.symm.trans hwritten.1)

theorem leftWrdata_of_accepted (hsamples : Samples input) (h : Accepted divide input v)
    {addr : BitVec 8}
    (haddr : (run divide input (v + 13)).division.leftAddr (input (v + 13)).toDivision = addr) :
    (run divide input (v + 18)).division.leftWrdata (written divide input (v + 12)) =
      (gray (cell divide input (v + 13) (written divide input (v + 12)) addr) +
          ((input v).grayIn.setWidth 8).setWidth 16) ++
        (number (cell divide input (v + 13) (written divide input (v + 12)) addr) + 1) ++
        (value (cell divide input (v + 13) (written divide input (v + 12)) addr) +
          (input v).distanceIn.setWidth 24) := by
  have hreading := h.reading
  have hq := qA_of_reading hsamples hreading haddr
  have hsame := written_of_reading hbank (k := 16) (by omega) (by omega)
  have hsame' := written_of_reading hbank (k := 17) (by omega) (by omega)
  have hread := hreading.read 3 (by decide)
  obtain ⟨hdistance, hgray⟩ := hsamples.held v hreading.validIn (v + 16) (by omega) (by omega)
  have hadd : (run divide input (v + 16)).division.cs = .read ∧
      (run divide input (v + 16)).division.stateCnt = 3 := ⟨hread, hreading.last⟩
  have hgridGray : (run divide input (v + 17)).division.gridGray =
      gray (cell divide input (v + 13) (written divide input (v + 12)) addr) +
        ((input v).grayIn.setWidth 8).setWidth 16 := by
    have hstep : (run divide input (v + 17)).division.gridGray =
        if (run divide input (v + 16)).division.cs = .read ∧
            (run divide input (v + 16)).division.stateCnt = 3 then
          gray ((run divide input (v + 16)).gridRam (written divide input (v + 16))).qA +
            ((input (v + 16)).grayIn.setWidth 8).setWidth 16
        else (run divide input (v + 16)).division.gridGray := rfl
    rw [hstep, if_pos hadd, hsame, hq, hgray]
  have hgridIdx : (run divide input (v + 17)).division.gridIdx =
      number (cell divide input (v + 13) (written divide input (v + 12)) addr) + 1 := by
    have hstep : (run divide input (v + 17)).division.gridIdx =
        if (run divide input (v + 16)).division.cs = .read ∧
            (run divide input (v + 16)).division.stateCnt = 3 then
          number ((run divide input (v + 16)).gridRam (written divide input (v + 16))).qA + 1
        else (run divide input (v + 16)).division.gridIdx := rfl
    rw [hstep, if_pos hadd, hsame, hq]
  have hgridValue : (run divide input (v + 17)).division.gridValue =
      value (cell divide input (v + 13) (written divide input (v + 12)) addr) +
        (input v).distanceIn.setWidth 24 := by
    have hstep : (run divide input (v + 17)).division.gridValue =
        if (run divide input (v + 16)).division.cs = .read ∧
            (run divide input (v + 16)).division.stateCnt = 3 then
          value ((run divide input (v + 16)).gridRam (written divide input (v + 16))).qA +
            (input (v + 16)).distanceIn.setWidth 24
        else (run divide input (v + 16)).division.gridValue := rfl
    rw [hstep, if_pos hadd, hsame, hq, hdistance]
  have hstep : (run divide input (v + 18)).division.leftWrdata (written divide input (v + 12)) =
      if written divide input (v + 12) = written divide input (v + 17) ∧
          (run divide input (v + 17)).division.cs = .write then
        (run divide input (v + 17)).division.gridGray ++ (run divide input (v + 17)).division.gridIdx
          ++ (run divide input (v + 17)).division.gridValue
      else (run divide input (v + 17)).division.leftWrdata (written divide input (v + 12)) := rfl
  rw [hstep, if_pos ⟨hsame'.symm, h⟩, hgridGray, hgridIdx, hgridValue]

end Bank

end Reading

/-- No toggle takes effect in `READ` or `WRITE`, and no field of the cell is full. -/
structure Undisturbed (divide : BitVec 24 → BitVec 9 → BitVec 24) (input : ℕ → Input) : Prop where
  bank : ∀ v, Accepted divide input v → ∀ T, v + 12 < T → T ≤ v + 17 → ¬ Toggle divide input T
  room : ∀ v bank addr, Accepted divide input v → Reads divide input v bank addr →
    (number (cell divide input (v + 13) bank addr)).toNat + 1 < 2 ^ 8 ∧
      (value (cell divide input (v + 13) bank addr)).toNat + (input v).distanceIn.toNat < 2 ^ 24 ∧
      (gray (cell divide input (v + 13) bank addr)).toNat + ((input v).grayIn.setWidth 8).toNat <
        2 ^ 16

/-- The distances that a cell counts before clock `c`: those that landed there after it was cleared. A
distance that lands with clock `d` came with clock `d - 18`. -/
noncomputable def counted (divide : BitVec 24 → BitVec 9 → BitVec 24) (input : ℕ → Input)
    (bank : Bool) (addr : BitVec 8) (c : ℕ) : Finset ℕ :=
  since (Lands divide input bank addr) (Cleared divide input bank addr) c

/-- The distances that have not been cleared, in either bank. -/
noncomputable def allCounted (divide : BitVec 24 → BitVec 9 → BitVec 24) (input : ℕ → Input) (c : ℕ) :
    Finset ℕ := by
  classical
  exact (Finset.range c).filter fun d => ∃ bank addr, d ∈ counted divide input bank addr c

/-- **Every accepted distance is counted once**: in the one cell that it read, and the cells hold what
was accepted since they were cleared. -/
structure CountedOnce (divide : BitVec 24 → BitVec 9 → BitVec 24) (input : ℕ → Input) : Prop where
  target : ∀ v, Accepted divide input v →
    ∃! target : Bool × BitVec 8, Reads divide input v target.1 target.2
  adds : ∀ v bank addr, Accepted divide input v → Reads divide input v bank addr →
    (number (cell divide input (v + 19) bank addr)).toNat =
        (number (cell divide input (v + 18) bank addr)).toNat + 1 ∧
      (value (cell divide input (v + 19) bank addr)).toNat =
        (value (cell divide input (v + 18) bank addr)).toNat + (input v).distanceIn.toNat ∧
      (gray (cell divide input (v + 19) bank addr)).toNat =
        (gray (cell divide input (v + 18) bank addr)).toNat + ((input v).grayIn.setWidth 8).toNat
  others : ∀ v bank addr, Accepted divide input v → ¬ Reads divide input v bank addr →
    ¬ Cleared divide input bank addr (v + 18) →
    cell divide input (v + 19) bank addr = cell divide input (v + 18) bank addr
  number : ∀ c bank addr, (number (cell divide input c bank addr)).toNat =
    (counted divide input bank addr c).card
  value : ∀ c bank addr, (value (cell divide input c bank addr)).toNat =
    ∑ d ∈ counted divide input bank addr c, (input (d - 18)).distanceIn.toNat
  gray : ∀ c bank addr, (gray (cell divide input c bank addr)).toNat =
    ∑ d ∈ counted divide input bank addr c, ((input (d - 18)).grayIn.setWidth 8).toNat
  total : ∀ c, ∑ target : Bool × Fin 256,
      (GridDivision.number (cell divide input c target.1 (BitVec.ofFin target.2))).toNat =
    (allCounted divide input c).card

section Undisturbed

variable (hsamples : Samples input) (hundisturbed : Undisturbed divide input)

include hsamples hundisturbed

theorem lands_of_leftWren {c : ℕ} {bank : Bool} {addr : BitVec 8}
    (hwren : (run divide input c).division.leftWren bank = true)
    (haddr : (run divide input c).division.leftAddr (input c).toDivision = addr) :
    Lands divide input bank addr c := by
  cases c with
  | zero => cases hwren
  | succ c =>
      rw [leftWren_succ, Bool.and_eq_true, beq_iff_eq, beq_iff_eq] at hwren
      obtain ⟨hbank, hwrite⟩ := hwren
      obtain ⟨v, rfl, hreading⟩ := exists_reading hwrite
      have hacc : Accepted divide input v := hwrite
      refine ⟨v, rfl, hacc, (reads_iff hreading _ _).mpr ⟨?_, ?_⟩⟩
      · rw [hbank]
        exact written_of_reading (hundisturbed.bank v hacc) (k := 17) (by omega) le_rfl
      · rw [← haddr]
        exact (leftAddr_of_reading hsamples hreading (k := 18) (by omega) le_rfl).symm

theorem cell_of_not_lands {c : ℕ} {bank : Bool} {addr : BitVec 8}
    (hcleared : ¬ Cleared divide input bank addr c) (hlands : ¬ Lands divide input bank addr c) :
    cell divide input (c + 1) bank addr = cell divide input c bank addr :=
  cell_keep hcleared fun h => hlands (lands_of_leftWren hsamples hundisturbed h.1 h.2)

/-- A distance that lands is added to what the cell held just before. -/
theorem cell_of_lands {c : ℕ} {bank : Bool} {addr : BitVec 8}
    (hcleared : ¬ Cleared divide input bank addr c) (hlands : Lands divide input bank addr c) :
    (number (cell divide input (c + 1) bank addr)).toNat =
        (number (cell divide input c bank addr)).toNat + 1 ∧
      (value (cell divide input (c + 1) bank addr)).toNat =
        (value (cell divide input c bank addr)).toNat + (input (c - 18)).distanceIn.toNat ∧
      (gray (cell divide input (c + 1) bank addr)).toNat =
        (gray (cell divide input c bank addr)).toNat +
          ((input (c - 18)).grayIn.setWidth 8).toNat := by
  obtain ⟨v, rfl, hacc, hreads⟩ := hlands
  have hreading := hacc.reading
  have hbank := hundisturbed.bank v hacc
  obtain ⟨hnumber, hvalue, hgray⟩ := hundisturbed.room v bank addr hacc hreads
  obtain ⟨rfl, haddr⟩ := (reads_iff hreading _ _).mp hreads
  have hsame := written_of_reading hbank (k := 17) (by omega) le_rfl
  have hwren : (run divide input (v + 18)).division.leftWren (written divide input (v + 12)) =
      true := by
    rw [leftWren_succ (v + 17), hsame, beq_self_eq_true, Bool.true_and, beq_iff_eq]
    exact hacc
  have hleft : (run divide input (v + 18)).division.leftAddr (input (v + 18)).toDivision = addr :=
    (leftAddr_of_reading hsamples hreading (k := 18) (by omega) le_rfl).trans haddr
  have hkeep : cell divide input (v + 18) (written divide input (v + 12)) addr =
      cell divide input (v + 13) (written divide input (v + 12)) addr :=
    cell_of_reading hbank hreading addr (k := 5) le_rfl
  have hclock : v + 18 - 18 = v := by omega
  rw [cell_written hcleared hwren hleft, leftWrdata_of_accepted hbank hsamples hacc haddr,
    number_append, value_append, gray_append, hkeep, hclock]
  have hunit : (1 : BitVec 8).toNat = 1 := rfl
  simp only [BitVec.toNat_add, BitVec.toNat_setWidth, hunit] at *
  omega

end Undisturbed

theorem exists_unique_reads {v : ℕ} (h : Reading divide input v) :
    ∃! target : Bool × BitVec 8, Reads divide input v target.1 target.2 := by
  refine ⟨(written divide input (v + 12),
    (run divide input (v + 13)).division.leftAddr (input (v + 13)).toDivision),
    (reads_iff h _ _).mpr ⟨rfl, rfl⟩, ?_⟩
  rintro ⟨bank, addr⟩ hreads
  obtain ⟨hbank, haddr⟩ := (reads_iff h _ _).mp hreads
  exact Prod.ext hbank haddr.symm

theorem lands_unique {d : ℕ} {bank bank' : Bool} {addr addr' : BitVec 8}
    (h : Lands divide input bank addr d) (h' : Lands divide input bank' addr' d) :
    bank = bank' ∧ addr = addr' := by
  obtain ⟨v, rfl, hacc, hreads⟩ := h
  obtain ⟨v', hv, -, hreads'⟩ := h'
  obtain rfl : v = v' := by omega
  obtain ⟨rfl, rfl⟩ := (reads_iff hacc.reading _ _).mp hreads
  obtain ⟨rfl, rfl⟩ := (reads_iff hacc.reading _ _).mp hreads'
  exact ⟨rfl, rfl⟩

theorem sum_counted (c : ℕ) :
    ∑ target : Bool × Fin 256, (counted divide input target.1 (BitVec.ofFin target.2) c).card =
      (allCounted divide input c).card := by
  classical
  have hdisjoint : (Set.univ : Set (Bool × Fin 256)).PairwiseDisjoint
      fun target => counted divide input target.1 (BitVec.ofFin target.2) c := by
    intro target _ target' _ hne
    refine Finset.disjoint_left.mpr fun d hd hd' => hne ?_
    obtain ⟨hbank, haddr⟩ := lands_unique (mem_since.mp hd).2.1 (mem_since.mp hd').2.1
    exact Prod.ext hbank (congrArg BitVec.toFin haddr)
  have hunion : allCounted divide input c = Finset.univ.biUnion
      fun target : Bool × Fin 256 => counted divide input target.1 (BitVec.ofFin target.2) c := by
    ext d
    simp only [allCounted, Finset.mem_filter, Finset.mem_range, Finset.mem_biUnion,
      Finset.mem_univ, true_and]
    constructor
    · rintro ⟨-, bank, addr, hd⟩
      exact ⟨(bank, addr.toFin), hd⟩
    · rintro ⟨target, hd⟩
      exact ⟨(mem_since.mp hd).1, target.1, _, hd⟩
  rw [hunion, Finset.card_biUnion fun target _ target' _ hne =>
    hdisjoint (Set.mem_univ target) (Set.mem_univ target') hne]

/-- **No distance is lost or counted twice, as long as no toggle comes between its reading and its
writing and no field is full.** -/
theorem counted_once (divide : BitVec 24 → BitVec 9 → BitVec 24) {input : ℕ → Input}
    (hsamples : Samples input) (hundisturbed : Undisturbed divide input) :
    CountedOnce divide input := by
  have hnumber (c : ℕ) (bank : Bool) (addr : BitVec 8) :
      (number (cell divide input c bank addr)).toNat = (counted divide input bank addr c).card := by
    rw [Finset.card_eq_sum_ones]
    refine eq_sum_since (fun c => (number (cell divide input c bank addr)).toNat) (fun _ => 1)
      (by rw [cell_zero, number_zero]) (fun c hreset => ?_) (fun c hreset hhit => ?_) (fun c hreset hhit => ?_) c
    · rw [cell_of_cleared hreset, number_zero]
    · exact (cell_of_lands hsamples hundisturbed hreset hhit).1
    · exact congrArg (fun word => (number word).toNat)
        (cell_of_not_lands hsamples hundisturbed hreset hhit)
  exact {
    target := fun v hacc => exists_unique_reads hacc.reading
    adds := fun v bank addr hacc hreads => by
      have hlands : Lands divide input bank addr (v + 18) := ⟨v, rfl, hacc, hreads⟩
      have hcleared : ¬ Cleared divide input bank addr (v + 18) := by
        rintro ⟨hwren, -⟩
        obtain ⟨rfl, -⟩ := (reads_iff hacc.reading _ _).mp hreads
        have hsame := written_of_reading (hundisturbed.bank v hacc) (k := 17) (by omega) le_rfl
        rw [rightWren_succ (v + 17), hsame, bne_self_eq_false, Bool.false_and] at hwren
        exact Bool.false_ne_true hwren
      exact cell_of_lands hsamples hundisturbed hcleared hlands
    others := fun v bank addr hacc hreads hcleared =>
      cell_of_not_lands hsamples hundisturbed hcleared fun ⟨v', hv, _, hreads'⟩ => hreads (by
        obtain rfl : v = v' := by omega
        exact hreads')
    number := hnumber
    value := fun c bank addr => by
      refine eq_sum_since (fun c => (value (cell divide input c bank addr)).toNat)
        (fun d => (input (d - 18)).distanceIn.toNat) (by rw [cell_zero, value_zero])
        (fun c hreset => ?_) (fun c hreset hhit => ?_) (fun c hreset hhit => ?_) c
      · rw [cell_of_cleared hreset, value_zero]
      · exact (cell_of_lands hsamples hundisturbed hreset hhit).2.1
      · exact congrArg (fun word => (value word).toNat)
          (cell_of_not_lands hsamples hundisturbed hreset hhit)
    gray := fun c bank addr => by
      refine eq_sum_since (fun c => (gray (cell divide input c bank addr)).toNat)
        (fun d => ((input (d - 18)).grayIn.setWidth 8).toNat) (by rw [cell_zero, gray_zero])
        (fun c hreset => ?_) (fun c hreset hhit => ?_) (fun c hreset hhit => ?_) c
      · rw [cell_of_cleared hreset, gray_zero]
      · exact (cell_of_lands hsamples hundisturbed hreset hhit).2.2
      · exact congrArg (fun word => (gray word).toNat)
          (cell_of_not_lands hsamples hundisturbed hreset hhit)
    total := fun c => by
      rw [← sum_counted]
      exact Finset.sum_congr rfl fun target _ => hnumber c target.1 _ }

/-- No distance is in the RAM before clock 19. -/
theorem cell_early {c : ℕ} (hc : c ≤ 18) (bank : Bool) (addr : BitVec 8) :
    cell divide input c bank addr = 0 := by
  induction c with
  | zero => rfl
  | succ c ih =>
      by_cases hcleared : Cleared divide input bank addr c
      · exact cell_of_cleared hcleared
      · rw [cell_keep hcleared fun h => ?_, ih (by omega)]
        cases c with
        | zero => cases h.1
        | succ c =>
            rw [leftWren_succ, Bool.and_eq_true, beq_iff_eq, beq_iff_eq] at h
            obtain ⟨v, hv, -⟩ := exists_reading h.1.2
            omega

/-- One distance in clock 1 and one shot in clock 5; the edge of a tooth comes with clock `tooth`. -/
def oneDistance (tooth : ℕ) (c : ℕ) : Input where
  sendEn := c == 5
  validIn := c == 1
  distanceIn := 1200
  grayIn := 7
  zeroFlag := c == 0
  wheelFall := c == tooth
  stepCnt := 0
  degreePara := 100
  validNumThreshold := 10
  correctPulseWidth := 0

theorem samples_oneDistance (tooth : ℕ) : Samples (oneDistance tooth) where
  apart c d hlt hc hd := by
    simp only [oneDistance, beq_iff_eq] at hc hd
    omega
  held v _ c _ _ := ⟨rfl, rfl⟩

theorem undisturbed_oneDistance (divide : BitVec 24 → BitVec 9 → BitVec 24) :
    Undisturbed divide (oneDistance 6) := by
  have hone {v : ℕ} (hacc : Accepted divide (oneDistance 6) v) : v = 1 :=
    beq_iff_eq.mp hacc.reading.validIn
  refine ⟨fun v hacc T hlo hhi hT => ?_, fun v bank addr hacc _ => ?_⟩
  · obtain rfl := hone hacc
    have hwritten (c : ℕ) : written divide (oneDistance 6) c =
        (trace GridDivision.Control.step GridDivision.Control.powerUp
          (fun c => (oneDistance 6 c).toDivision) c).tannisChange :=
      congrArg GridDivision.Control.tannisChange (division_run _ _ c)
    have hsame : ∀ T < 18, 12 < T → (trace GridDivision.Control.step GridDivision.Control.powerUp
        (fun c => (oneDistance 6 c).toDivision) (T + 1)).tannisChange =
      (trace GridDivision.Control.step GridDivision.Control.powerUp
        (fun c => (oneDistance 6 c).toDivision) T).tannisChange := by decide +kernel
    cases T with
    | zero => exact hT
    | succ T =>
        refine hT ?_
        rw [hwritten, hwritten]
        exact hsame T (by omega) (by omega)
  · obtain rfl := hone hacc
    rw [cell_early (by decide), number_zero, value_zero, gray_zero]
    decide

theorem counted_oneDistance : CountedOnce (fun numer denom => numer / denom.setWidth 24)
    (oneDistance 6) :=
  counted_once _ (samples_oneDistance 6) (undisturbed_oneDistance _)

/-- The edge of a tooth in clock 13: the distance is read from one bank and written to the other. -/
theorem not_counted_once : ¬ ∀ (divide : BitVec 24 → BitVec 9 → BitVec 24) (input : ℕ → Input),
    Samples input → CountedOnce divide input := by
  intro h
  have hcounted := h (fun numer _ => numer) (oneDistance 13) (samples_oneDistance 13)
  have hcontrol (c : ℕ) : (run (fun numer _ => numer) (oneDistance 13) c).division.toControl =
      trace GridDivision.Control.step GridDivision.Control.powerUp
        (fun c => (oneDistance 13 c).toDivision) c := division_run _ _ c
  have hacc : Accepted (fun numer _ => numer) (oneDistance 13) 1 := by
    change (run _ _ 18).division.toControl.cs = .write
    rw [hcontrol]
    decide +kernel
  have hbank : written (fun numer _ => numer) (oneDistance 13) 13 = false := by
    change (run _ _ 13).division.toControl.tannisChange = false
    rw [hcontrol]
    decide +kernel
  have hother : written (fun numer _ => numer) (oneDistance 13) 18 = true := by
    change (run _ _ 18).division.toControl.tannisChange = true
    rw [hcontrol]
    decide +kernel
  obtain ⟨addr, hreads⟩ : ∃ addr, Reads (fun numer _ => numer) (oneDistance 13) 1 false addr :=
    ⟨_, (reads_iff hacc.reading _ _).mpr ⟨hbank.symm, rfl⟩⟩
  have hadds : (number (cell (fun numer _ => numer) (oneDistance 13) 20 false addr)).toNat =
      (number (cell (fun numer _ => numer) (oneDistance 13) 19 false addr)).toNat + 1 :=
    (hcounted.adds 1 false addr hacc hreads).1
  by_cases hcleared : Cleared (fun numer _ => numer) (oneDistance 13) false addr 19
  · rw [cell_of_cleared hcleared, number_zero] at hadds
    omega
  · have hwren : (run (fun numer _ => numer) (oneDistance 13) 19).division.leftWren false =
        false := by
      rw [leftWren_succ 18, hother]
      rfl
    rw [cell_keep hcleared fun hleft => Bool.false_ne_true (hwren.symm.trans hleft.1)] at hadds
    omega

end CalcDistance

end SingleScan
