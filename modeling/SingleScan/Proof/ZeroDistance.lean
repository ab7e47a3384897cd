import Mathlib.Algebra.BigOperators.Fin
import Mathlib.Algebra.Order.BigOperators.Group.Finset
import Mathlib.Data.List.GetD
import SingleScan.Lib.Since
import SingleScan.Lib.Tally
import SingleScan.ZeroDistance

/-!
# The zero reference

With three distances a rotation the state machine is idle at every zero mark, so each rotation puts its
first two distances into the shift register. Four clocks on, `data_out` is the mean of the sixteen less
`zero_distance_revise`, modulo `2 ^ 16`: the subtraction has no floor.
-/

namespace SingleScan

namespace ZeroDistance

open Clocked

/-- The state after `t` clocks, from the reset on. -/
def run (input : ℕ → Input) (t : ℕ) : State := trace step State.reset input t

theorem run_succ (input : ℕ → Input) (t : ℕ) : run input (t + 1) = step (run input t) (input t) := rfl

def zero (input : ℕ → Input) (t : ℕ) : Prop := (input t).zeroFlag = true

def sample (input : ℕ → Input) (t : ℕ) : Bool := (input t).dataInValid

/-! ### The adder tree -/

/-- The sum of what is in the shift register. -/
def total (r : Fin 16 → BitVec 16) : ℕ := ∑ k, (r k).toNat

theorem total_le (r : Fin 16 → BitVec 16) : total r ≤ 16 * 65535 := by
  calc total r ≤ ∑ _k : Fin 16, 65535 := Finset.sum_le_sum fun k _ => by
        have := (r k).isLt
        omega
    _ = 16 * 65535 := by simp

variable {input : ℕ → Input}

theorem dataPipe0_succ (t : ℕ) (k : Fin 8) :
    ((run input (t + 1)).dataPipe0 k).toNat =
      ((run input t).dataInR (left k)).toNat + ((run input t).dataInR (right k)).toNat := by
  have hleft := ((run input t).dataInR (left k)).isLt
  have hright := ((run input t).dataInR (right k)).isLt
  simp only [run_succ, step, BitVec.toNat_add, BitVec.toNat_setWidth]
  omega

theorem dataPipe1_succ (t : ℕ) (k : Fin 4) :
    ((run input (t + 2)).dataPipe1 k).toNat =
      ((run input (t + 1)).dataPipe0 (left k)).toNat +
        ((run input (t + 1)).dataPipe0 (right k)).toNat := by
  have hsum : ∀ j : Fin 8, ((run input (t + 1)).dataPipe0 j).toNat < 2 ^ 17 := by
    intro j
    rw [dataPipe0_succ]
    have hleft := ((run input t).dataInR (left j)).isLt
    have hright := ((run input t).dataInR (right j)).isLt
    omega
  have hleft := hsum (left k)
  have hright := hsum (right k)
  rw [run_succ]
  simp only [step, BitVec.toNat_add]
  omega

theorem dataPipe2_succ (t : ℕ) (k : Fin 2) :
    ((run input (t + 3)).dataPipe2 k).toNat =
      ((run input (t + 2)).dataPipe1 (left k)).toNat +
        ((run input (t + 2)).dataPipe1 (right k)).toNat := by
  have hsum : ∀ j : Fin 4, ((run input (t + 2)).dataPipe1 j).toNat < 2 ^ 18 := by
    intro j
    rw [dataPipe1_succ, dataPipe0_succ, dataPipe0_succ]
    have hbound := fun l : Fin 16 => ((run input t).dataInR l).isLt
    have h₀ := hbound (left (left j))
    have h₁ := hbound (right (left j))
    have h₂ := hbound (left (right j))
    have h₃ := hbound (right (right j))
    omega
  have hleft := hsum (left k)
  have hright := hsum (right k)
  rw [run_succ]
  simp only [step, BitVec.toNat_add]
  omega

theorem dataPipe2_total (t : ℕ) :
    ((run input (t + 3)).dataPipe2 ⟨0, Nat.two_pos⟩).toNat +
        ((run input (t + 3)).dataPipe2 ⟨1, Nat.one_lt_two⟩).toNat =
      total (run input t).dataInR := by
  simp only [dataPipe2_succ, dataPipe1_succ, dataPipe0_succ, total, Fin.sum_univ_succ]
  simp only [Fin.sum_univ_zero, left, right]
  dsimp [Fin.succ]
  omega

/-- `data_out`, four clocks behind the shift register. -/
theorem dataOut_eq (t : ℕ) :
    (run input (t + 4)).dataOut.toNat =
      (total (run input t).dataInR / 16 + 2 ^ 16 -
        (input (t + 3)).zeroDistanceRevise.toNat) % 2 ^ 16 := by
  have htotal := @dataPipe2_total input t
  have hbound := total_le (run input t).dataInR
  have hrevise := (input (t + 3)).zeroDistanceRevise.isLt
  rw [run_succ]
  simp only [step, BitVec.toNat_setWidth, BitVec.toNat_sub, BitVec.toNat_ushiftRight,
    BitVec.toNat_add, Nat.shiftRight_eq_div_pow, htotal]
  omega

/-! ### What is in the shift register -/

/-- The distances taken before clock `t`, the last one first. -/
def taken (input : ℕ → Input) : ℕ → List (BitVec 16)
  | 0 => []
  | t + 1 =>
      if (run input t).takes (input t) then (input t).dataIn :: taken input t else taken input t

theorem dataInR_eq (input : ℕ → Input) (t : ℕ) (k : Fin 16) :
    (run input t).dataInR k = (taken input t).getD k 0 := by
  induction t generalizing k with
  | zero => rfl
  | succ t ih =>
      rw [run_succ, taken]
      simp only [step]
      split
      · cases k using Fin.cases with
        | zero => rfl
        | succ k => simp [Fin.init, ih]
      · exact ih k

/-- As long as the list is long enough, the register holds its sixteen first distances. -/
theorem total_dataInR {t : ℕ} {new old : List (BitVec 16)} (htaken : taken input t = new ++ old)
    (hlength : new.length = 16) :
    total (run input t).dataInR = (new.map BitVec.toNat).sum := by
  have hget : ∀ k : Fin 16, (run input t).dataInR k = new.get (k.cast hlength.symm) := by
    intro k
    have hlt : (k : ℕ) < new.length := by omega
    rw [dataInR_eq, htaken, List.getD_append _ _ _ _ hlt, List.getD_eq_getElem _ _ hlt]
    rfl
  rw [total, ← List.sum_ofFn]
  congr 1
  refine List.ext_getElem (by simp [hlength]) fun k hk _ => ?_
  rw [List.getElem_ofFn, List.getElem_map, hget]
  rfl

/-! ### The state machine over a rotation -/

/-- Any two zero marks have three distances in between. -/
def Sampled (input : ℕ → Input) : Prop :=
  ∀ z z', zero input z → zero input z' → z < z' → 3 ≤ tally (sample input) (z + 1) z'

/-- The state behind a zero mark, by the number of distances that have come. -/
def phaseAt : ℕ → Phase
  | 0 => .wait
  | 1 => .first
  | 2 => .second
  | _ => .idle

theorem cs_of_no_zero {t : ℕ} (hnone : ∀ e < t, ¬zero input e) : (run input t).cs = .idle := by
  induction t with
  | zero => rfl
  | succ t ih =>
      have hzero := hnone t (Nat.lt_succ_self t)
      have hcs := ih fun e he => hnone e (Nat.lt_succ_of_lt he)
      simp only [zero] at hzero
      simp [run_succ, step, State.ns, hcs, hzero]

theorem cs_after_zero {z : ℕ} (hzero : zero input z) (hidle : (run input z).cs = .idle) {t : ℕ}
    (ht : z + 1 ≤ t) (hnone : ∀ e, z < e → e < t → ¬zero input e) :
    (run input t).cs = phaseAt (tally (sample input) (z + 1) t) := by
  simp only [zero] at hzero hnone
  induction t, ht using Nat.le_induction with
  | base =>
      rw [tally_self, run_succ]
      simp [step, State.ns, hidle, hzero, phaseAt]
  | succ t ht ih =>
      have hcs := ih fun e hlt he => hnone e hlt (Nat.lt_succ_of_lt he)
      have hno := hnone t ht (Nat.lt_succ_self t)
      rw [run_succ]
      cases hsample : sample input t with
      | true =>
          have hvalid : (input t).dataInValid = true := hsample
          rw [tally_succ_of_event ht hsample]
          generalize tally (sample input) (z + 1) t = n at hcs
          match n, hcs with
          | 0, hcs | 1, hcs | 2, hcs => simp [step, State.ns, hcs, phaseAt, hvalid]
          | _ + 3, hcs => simp [step, State.ns, hcs, phaseAt, hno]
      | false =>
          have hvalid : (input t).dataInValid = false := hsample
          rw [tally_succ_of_not ht hsample]
          generalize tally (sample input) (z + 1) t = n at hcs
          match n, hcs with
          | 0, hcs | 1, hcs | 2, hcs => simp [step, State.ns, hcs, phaseAt, hvalid]
          | _ + 3, hcs => simp [step, State.ns, hcs, phaseAt, hno]

/-- **Every zero mark finds the machine idle.** -/
theorem idle_at_zero (hsampled : Sampled input) {z : ℕ} (hzero : zero input z) :
    (run input z).cs = .idle := by
  induction z using Nat.strong_induction_on with
  | h z ih =>
      cases z with
      | zero => rfl
      | succ z =>
          rcases last_or_none (zero input) z with hnone | ⟨d, hlast⟩
          · exact cs_of_no_zero fun e he => hnone e (Nat.le_of_lt_succ he)
          · have hlt : d < z + 1 := Nat.lt_succ_of_le hlast.le
            have hthree := hsampled d (z + 1) hlast.event hzero hlt
            rw [cs_after_zero hlast.event (ih d hlt hlast.event) hlt
              fun e hde he => hlast.none e hde (Nat.le_of_lt_succ he)]
            match tally (sample input) (d + 1) (z + 1), hthree with
            | _ + 3, _ => rfl

/-- The distance is taken if it is the first or the second one behind the zero mark. -/
theorem takes_after_zero {z : ℕ} (hzero : zero input z) (hidle : (run input z).cs = .idle) {t : ℕ}
    (ht : z + 1 ≤ t) (hnone : ∀ e, z < e → e < t → ¬zero input e) :
    (run input t).takes (input t) =
      (sample input t && decide (tally (sample input) (z + 1) t < 2)) := by
  have hcs := cs_after_zero hzero hidle ht hnone
  generalize tally (sample input) (z + 1) t = n at hcs
  unfold State.takes State.ns sample
  match n, hcs with
  | 0, hcs | 1, hcs | 2, hcs => cases hvalid : (input t).dataInValid <;> simp [hcs, phaseAt]
  | _ + 3, hcs => cases hvalid : (input t).dataInValid <;> simp [hcs, phaseAt]

theorem takes_of_no_sample {t : ℕ} (hsample : sample input t = false) :
    (run input t).takes (input t) = false := by
  have hvalid : (input t).dataInValid = false := hsample
  unfold State.takes State.ns
  cases (run input t).cs <;> simp [hvalid]

theorem taken_keep {a t : ℕ} (hat : a ≤ t)
    (hnone : ∀ e, a ≤ e → e < t → (run input e).takes (input e) = false) :
    taken input t = taken input a := by
  induction t, hat using Nat.le_induction with
  | base => rfl
  | succ t hat ih =>
      rw [taken, hnone t hat (Nat.lt_succ_self t), if_neg Bool.false_ne_true,
        ih fun e hae het => hnone e hae (Nat.lt_succ_of_lt het)]

/-- A zero mark at clock `z`, with its first two distances at clocks `u` and `v`. -/
structure Rotation (input : ℕ → Input) (z u v : ℕ) : Prop where
  starts : zero input z
  lt_first : z < u
  first : sample input u = true
  before_first : ∀ t, z < t → t < u → sample input t = false
  lt_second : u < v
  second : sample input v = true
  before_second : ∀ t, u < t → t < v → sample input t = false

section Rotation

variable {z u v : ℕ}

theorem Rotation.tally_first (hrotation : Rotation input z u v) :
    tally (sample input) (z + 1) u = 0 :=
  tally_eq_zero_iff.2 hrotation.before_first

theorem Rotation.tally_second (hrotation : Rotation input z u v) :
    tally (sample input) (z + 1) v = 1 := by
  have hafter : tally (sample input) (u + 1) v = 0 := tally_eq_zero_iff.2 hrotation.before_second
  have hstep := tally_succ_of_event hrotation.lt_first hrotation.first
  rw [hrotation.tally_first] at hstep
  rw [← tally_add _ (Nat.lt_succ_of_lt hrotation.lt_first) hrotation.lt_second, hstep, hafter]

theorem Rotation.no_zero (hrotation : Rotation input z u v) (hsampled : Sampled input) {e : ℕ}
    (hlt : z < e) (hle : e ≤ v) : ¬zero input e := by
  intro hzero
  have hthree := hsampled z e hrotation.starts hzero hlt
  have hone := tally_mono (sample input) (z + 1) hle
  rw [hrotation.tally_second] at hone
  omega

theorem Rotation.taken_second (hrotation : Rotation input z u v) (hsampled : Sampled input) :
    taken input (v + 1) = (input v).dataIn :: (input u).dataIn :: taken input z := by
  have hidle := idle_at_zero hsampled hrotation.starts
  have htakes : ∀ t, z < t → t ≤ v → (run input t).takes (input t) =
      (sample input t && decide (tally (sample input) (z + 1) t < 2)) :=
    fun t hlt hle => takes_after_zero hrotation.starts hidle hlt
      fun e hze het => hrotation.no_zero hsampled hze (het.le.trans hle)
  have hfirst : (run input u).takes (input u) = true := by
    rw [htakes u hrotation.lt_first hrotation.lt_second.le, hrotation.first, hrotation.tally_first]
    rfl
  have hsecond : (run input v).takes (input v) = true := by
    rw [htakes v (hrotation.lt_first.trans hrotation.lt_second) le_rfl, hrotation.second,
      hrotation.tally_second]
    rfl
  have hbefore : taken input u = taken input z := by
    refine taken_keep hrotation.lt_first.le fun e hze heu => ?_
    rcases Nat.eq_or_lt_of_le hze with rfl | hlt
    · simp [State.takes, hidle]
    · exact takes_of_no_sample (hrotation.before_first e hlt heu)
  have hbetween : taken input v = taken input (u + 1) :=
    taken_keep hrotation.lt_second fun e hue hev =>
      takes_of_no_sample (hrotation.before_second e hue hev)
  rw [taken, if_pos hsecond, hbetween, taken, if_pos hfirst, hbefore]

/-- From the second distance on nothing is taken up to the next zero mark, and not before a distance
behind that. -/
theorem Rotation.taken_later (hrotation : Rotation input z u v) (hsampled : Sampled input) {t : ℕ}
    (hlt : v < t)
    (hundisturbed : ∀ z' s, zero input z' → z < z' → z' < s → sample input s = true → t ≤ s) :
    taken input t = (input v).dataIn :: (input u).dataIn :: taken input z := by
  rw [← hrotation.taken_second hsampled]
  refine taken_keep hlt fun e hve het => ?_
  have hze : z < e := (hrotation.lt_first.trans hrotation.lt_second).trans hve
  cases hsample : sample input e with
  | false => exact takes_of_no_sample hsample
  | true =>
      have hnone : ∀ z', z < z' → z' < e → ¬zero input z' := fun z' hzz' hz'e hzero =>
        absurd (hundisturbed z' e hzero hzz' hz'e hsample) (Nat.not_le_of_lt het)
      have htwo : tally (sample input) (z + 1) (v + 1) = 2 := by
        rw [tally_succ_of_event (hrotation.lt_first.trans hrotation.lt_second) hrotation.second,
          hrotation.tally_second]
      have hmany := tally_mono (sample input) (z + 1) hve
      rw [htwo] at hmany
      have hover : ¬tally (sample input) (z + 1) e < 2 := Nat.not_lt_of_le hmany
      rw [takes_after_zero hrotation.starts (idle_at_zero hsampled hrotation.starts) hze hnone,
        decide_eq_false hover, Bool.and_false]

end Rotation

/-! ### Eight rotations -/

/-- The last eight zero marks at clock `t`, with their first two distances; the distances of a later
rotation have not come yet. -/
structure LastEight (input : ℕ → Input) (z u v : ℕ → ℕ) (t : ℕ) : Prop where
  rotation : ∀ k < 8, Rotation input (z k) (u k) (v k)
  next : ∀ k < 7, z k < z (k + 1)
  consecutive : ∀ k < 7, ∀ e, z k < e → e < z (k + 1) → ¬zero input e
  settled : v 7 < t
  undisturbed : ∀ z' s, zero input z' → z 7 < z' → z' < s → sample input s = true → t ≤ s

/-- The first two distances of the first `n` rotations, the last one first. -/
def firstTwo (input : ℕ → Input) (u v : ℕ → ℕ) : ℕ → List (BitVec 16)
  | 0 => []
  | n + 1 => (input (v n)).dataIn :: (input (u n)).dataIn :: firstTwo input u v n

theorem length_firstTwo (input : ℕ → Input) (u v : ℕ → ℕ) (n : ℕ) :
    (firstTwo input u v n).length = 2 * n := by
  induction n with
  | zero => rfl
  | succ n ih => rw [firstTwo, List.length_cons, List.length_cons, ih]; omega

/-- `S`: the first two distances of the last eight rotations, added up. -/
def sumOfFirst (input : ℕ → Input) (u v : ℕ → ℕ) : ℕ :=
  ∑ k ∈ Finset.range 8, ((input (u k)).dataIn.toNat + (input (v k)).dataIn.toNat)

theorem sum_firstTwo (input : ℕ → Input) (u v : ℕ → ℕ) (n : ℕ) :
    ((firstTwo input u v n).map BitVec.toNat).sum =
      ∑ k ∈ Finset.range n, ((input (u k)).dataIn.toNat + (input (v k)).dataIn.toNat) := by
  induction n with
  | zero => rfl
  | succ n ih =>
      rw [Finset.sum_range_succ, ← ih, firstTwo, List.map_cons, List.map_cons, List.sum_cons,
        List.sum_cons]
      omega

section Eight

variable {z u v : ℕ → ℕ} {t : ℕ}

theorem LastEight.taken_eq (hlast : LastEight input z u v t) (hsampled : Sampled input) :
    taken input t = firstTwo input u v 8 ++ taken input (z 0) := by
  have hup : ∀ k ≤ 7, taken input (z k) = firstTwo input u v k ++ taken input (z 0) := by
    intro k
    induction k with
    | zero => exact fun _ => rfl
    | succ k ih =>
        intro hk
        have hrotation := hlast.rotation k (by omega)
        have hnext := hlast.next k (by omega)
        have hbehind : v k < z (k + 1) := Nat.lt_of_not_le fun hle =>
          hrotation.no_zero hsampled hnext hle (hlast.rotation (k + 1) (by omega)).starts
        have hnone : ∀ z' s, zero input z' → z k < z' → z' < s → sample input s = true →
            z (k + 1) ≤ s := by
          intro z' s hzero hlt hs _
          have hlater : z (k + 1) ≤ z' := Nat.le_of_not_lt fun hearly =>
            hlast.consecutive k (by omega) z' hlt hearly hzero
          exact hlater.trans hs.le
        rw [hrotation.taken_later hsampled hbehind hnone, ih (by omega)]
        rfl
  rw [(hlast.rotation 7 (by omega)).taken_later hsampled hlast.settled hlast.undisturbed,
    hup 7 le_rfl]
  rfl

theorem LastEight.total_eq (hlast : LastEight input z u v t) (hsampled : Sampled input) :
    total (run input t).dataInR = sumOfFirst input u v := by
  rw [total_dataInR (hlast.taken_eq hsampled) (length_firstTwo input u v 8), sum_firstTwo]
  rfl

theorem LastEight.dataOut_eq (hlast : LastEight input z u v t) (hsampled : Sampled input) :
    (run input (t + 4)).dataOut.toNat =
      (sumOfFirst input u v / 16 + 2 ^ 16 -
        (input (t + 3)).zeroDistanceRevise.toNat) % 2 ^ 16 := by
  rw [ZeroDistance.dataOut_eq, hlast.total_eq hsampled]

end Eight

end ZeroDistance

namespace Zeroing

open Clocked ZeroDistance

/-- The state after `t` clocks, from the reset on. -/
def run (input : ℕ → ZeroDistance.Input) (t : ℕ) : State := trace step State.reset input t

theorem distance_run (input : ℕ → ZeroDistance.Input) (t : ℕ) :
    (run input t).distance = ZeroDistance.run input t :=
  trace_component State.distance (fun _ i => i) (fun _ _ => rfl) t

/-- `zero_revise` maps the distance of clock `t` by the zero that it sees. -/
def Revised (input : ℕ → ZeroDistance.Input) (t : ℕ) : Prop :=
  (run input (t + 1)).revise.dataOutValid = (input t).dataInValid ∧
    (run input (t + 1)).revise.dataOut.toNat =
      if (run input t).distance.dataOut.toNat < (input t).dataIn.toNat then
        (input t).dataIn.toNat - (run input t).distance.dataOut.toNat
      else 0xFFFF

theorem revised (input : ℕ → ZeroDistance.Input) (t : ℕ) : Revised input t := by
  refine ⟨rfl, ?_⟩
  have hout : (run input (t + 1)).revise.dataOut =
      if (run input t).distance.dataOut.toNat < (input t).dataIn.toNat then
        (input t).dataIn - (run input t).distance.dataOut
      else 0xFFFF := rfl
  rw [hout]
  split
  · next h => rw [BitVec.toNat_sub_of_le (Nat.le_of_lt h)]
  · rfl

/-- **The zero reference** is the mean less `zero_distance_revise` if the mean is not below that, and
wraps around otherwise. `zero_revise` maps by what comes out. -/
theorem zero_exact_iff {input : ℕ → ZeroDistance.Input} {z u v : ℕ → ℕ} {t : ℕ}
    (hsampled : Sampled input) (hlast : LastEight input z u v t) :
    (((run input (t + 4)).distance.dataOut.toNat : ℤ) =
        (sumOfFirst input u v / 16 : ℕ) - ((input (t + 3)).zeroDistanceRevise.toNat : ℤ) ∧
        Revised input (t + 4)) ↔
      (input (t + 3)).zeroDistanceRevise.toNat ≤ sumOfFirst input u v / 16 := by
  have hvalue := hlast.dataOut_eq hsampled
  have hrevise := (input (t + 3)).zeroDistanceRevise.isLt
  have hmean : sumOfFirst input u v / 16 < 2 ^ 16 := by
    have hbound := total_le (ZeroDistance.run input t).dataInR
    rw [hlast.total_eq hsampled] at hbound
    omega
  rw [distance_run, hvalue, and_iff_left (revised input (t + 4))]
  omega

/-- A rotation of five clocks: the zero mark and four distances `d`. -/
def turning (d : BitVec 16) (t : ℕ) : ZeroDistance.Input where
  zeroDistanceRevise := 20
  zeroFlag := t % 5 == 0
  dataInValid := t % 5 != 0
  dataIn := d

theorem sampled_turning (d : BitVec 16) : Sampled (turning d) := by
  intro z z' hzero hzero' hlt
  simp only [zero, turning, beq_iff_eq] at hzero hzero'
  have hsample : ∀ t, t % 5 ≠ 0 → sample (turning d) t = true := by
    intro t ht
    simp [sample, turning, ht]
  have hthree : tally (sample (turning d)) (z + 1) (z + 4) = 3 := by
    rw [tally_succ_of_event (by omega) (hsample _ (by omega)),
      tally_succ_of_event (by omega) (hsample _ (by omega)),
      tally_succ_of_event (by omega) (hsample _ (by omega)), tally_self]
  rw [← hthree]
  exact tally_mono _ _ (by omega)

theorem lastEight_turning (d : BitVec 16) :
    LastEight (turning d) (fun k => 5 * k) (fun k => 5 * k + 1) (fun k => 5 * k + 2) 38 where
  rotation k _ :=
    { starts := by simp [zero, turning]
      lt_first := Nat.lt_succ_self _
      first := by simp [sample, turning]
      before_first := fun t hlt hle => by omega
      lt_second := Nat.lt_succ_self _
      second := by simp [sample, turning]
      before_second := fun t hlt hle => by omega }
  next k _ := by omega
  consecutive k _ e hlt hle := by
    have hne : e % 5 ≠ 0 := by omega
    simp [zero, turning, hne]
  settled := by decide
  undisturbed z' s hzero hlt hs _ := by
    simp only [zero, turning, beq_iff_eq] at hzero
    omega

theorem zero_exact_turning :
    ((run (turning 100) 42).distance.dataOut.toNat : ℤ) = 100 - 20 ∧ Revised (turning 100) 42 := by
  have hexact := zero_exact_iff (sampled_turning 100) (lastEight_turning 100)
  have hsum : sumOfFirst (turning 100) (fun k => 5 * k + 1) (fun k => 5 * k + 2) / 16 = 100 := by
    decide
  rw [hsum] at hexact
  exact hexact.2 (by decide)

/-- A mean of 5 less 20 comes out as 65521. -/
theorem zero_wraps_turning :
    Sampled (turning 5) ∧
      LastEight (turning 5) (fun k => 5 * k) (fun k => 5 * k + 1) (fun k => 5 * k + 2) 38 ∧
      sumOfFirst (turning 5) (fun k => 5 * k + 1) (fun k => 5 * k + 2) = 16 * 5 ∧
      (run (turning 5) 42).distance.dataOut = 65521 := by
  refine ⟨sampled_turning 5, lastEight_turning 5, by decide, ?_⟩
  apply BitVec.eq_of_toNat_eq
  rw [distance_run, (lastEight_turning 5).dataOut_eq (sampled_turning 5)]
  decide

end Zeroing

end SingleScan
