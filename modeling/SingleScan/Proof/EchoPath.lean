import SingleScan.EchoPath
import SingleScan.Proof.AdjustDistance
import SingleScan.Proof.FinalDistance
import SingleScan.Proof.PeakDiv

/-!
# The echoes of a shot in its list

A pulse that `adjust_distance` takes in is offered to the list nine clocks later. The list of a shot is
made of the first five pulses that are taken in early enough, and these are the first five that
`peak_div` reports, each with its own distance, only where the reports are far enough apart.
-/

namespace SingleScan.EchoPath

open Clocked

variable (d : BitVec 16 → BitVec 16 → BitVec 16) (s : State) (input : ℕ → Input)

/-- The channel at clock `c`. -/
abbrev path (c : ℕ) : State := trace (step d) s.reset input c

theorem peak_eq (c : ℕ) : (path d s input c).peak =
    trace PeakDiv.step s.peak.reset
      (fun t => (path d s input t).peakInput (input t)) c :=
  trace_component State.peak State.peakInput (fun _ _ => rfl) c

theorem adjust_eq (c : ℕ) : (path d s input c).adjust =
    trace AdjustDistance.step s.adjust.reset
      (fun t => (path d s input t).adjustInput (input t)) c :=
  trace_component State.adjust State.adjustInput (fun _ _ => rfl) c

/-! ### The serializer -/

/-- The strobes of the channel are far enough apart. -/
def Strobes : Prop :=
  ∀ p q, (input p).tolaEn = true → (input q).tolaEn = true → p < q → p + 420 ≤ q

variable {d s input}

theorem exists_since (h : Strobes input) (c : ℕ) :
    ∃ e, 1 ≤ e ∧ ParallelSerial.Since (path d s input c).channel.serial e ∧
      (∀ p < c, (input p).tolaEn = true → p + e ≤ c) ∧
      (e < 403 → ∃ p < c, (input p).tolaEn = true ∧ c = p + e) := by
  induction c with
  | zero =>
      exact ⟨403, by decide, ParallelSerial.since_reset _, fun p hp => absurd hp (by omega),
        fun h => absurd h (by omega)⟩
  | succ c ih =>
      obtain ⟨e, hpos, hsince, hall, hlast⟩ := ih
      have hfree : (input c).tolaEn = true → 403 ≤ e := by
        intro hstrobe
        by_contra hlt
        obtain ⟨p, hp, hen, hc⟩ := hlast (by omega)
        have := h p c hen hstrobe hp
        omega
      have hnext := hsince.step hpos hfree (input c).totalData
      refine ⟨if (input c).tolaEn then 1 else e + 1, ?_, hnext, fun p hp hen => ?_, fun hlt => ?_⟩
      · split <;> omega
      · split
        · omega
        · rename_i hquiet
          have hne : p ≠ c := by
            rintro rfl
            exact hquiet hen
          have := hall p (by omega) hen
          omega
      · split at hlt
        · rename_i hstrobe
          exact ⟨c, by omega, hstrobe, by rw [if_pos hstrobe]⟩
        · rename_i hquiet
          obtain ⟨p, hp, hen, hc⟩ := hlast (by omega)
          exact ⟨p, by omega, hen, by rw [if_neg hquiet]; omega⟩

theorem dataEn_iff (h : Strobes input) (c : ℕ) :
    (path d s input c).channel.serial.dataEn = true ↔
      ∃ p, (input p).tolaEn = true ∧ p + 3 ≤ c ∧ c ≤ p + 402 := by
  obtain ⟨e, hpos, hsince, hall, hlast⟩ := exists_since (d := d) (s := s) h c
  rw [hsince.dataEn, decide_eq_true_eq]
  constructor
  · rintro ⟨hlo, hhi⟩
    obtain ⟨p, hp, hen, hc⟩ := hlast (by omega)
    exact ⟨p, hen, by omega, by omega⟩
  · rintro ⟨p, hen, hlo, hhi⟩
    have hle := hall p (by omega) hen
    obtain ⟨q, hq, hen', hc⟩ := hlast (by omega)
    have hpq : ¬ p < q := fun hlt => by
      have := h p q hen hen' hlt
      omega
    omega

theorem since_of_strobe (h : Strobes input) {p : ℕ} (hstrobe : (input p).tolaEn = true) {e : ℕ}
    (hlo : 1 ≤ e) (hhi : e ≤ 402) :
    ParallelSerial.Since (path d s input (p + e)).channel.serial e := by
  obtain ⟨e', hpos, hsince, hall, hlast⟩ := exists_since (d := d) (s := s) h (p + e)
  have hle := hall p (by omega) hstrobe
  obtain ⟨q, hq, hen, hc⟩ := hlast (by omega)
  have hpq : ¬ p < q := fun hlt => by
    have := h p q hstrobe hen hlt
    omega
  obtain rfl : e' = e := by omega
  exact hsince

section Strobe

variable (h : Strobes input) {p : ℕ} (hstrobe : (input p).tolaEn = true)

include h hstrobe

theorem dataEn_window {c : ℕ} (hlo : p + 3 ≤ c) (hhi : c ≤ p + 402) :
    (path d s input c).channel.serial.dataEn = true :=
  (dataEn_iff h c).mpr ⟨p, hstrobe, hlo, hhi⟩

theorem dataEn_outside {c : ℕ} (hlo : p ≤ c + 13) (hhi : c ≤ p + 422)
    (hout : c < p + 3 ∨ p + 402 < c) : (path d s input c).channel.serial.dataEn = false := by
  rw [Bool.eq_false_iff, Ne, dataEn_iff h c]
  rintro ⟨q, hq, hle, hge⟩
  rcases Nat.lt_trichotomy p q with hlt | rfl | hlt
  · have := h p q hstrobe hq hlt
    omega
  · omega
  · have := h q p hq hstrobe hlt
    omega

/-- The samples of a window are the bits of the return. -/
theorem serialData_of_strobe : ∀ k < 400,
    (path d s input (p + 3 + k)).channel.serial.serialData =
      (input (p + 1)).totalData.getLsbD k := by
  have hmid : ∀ k ≤ 399, (path d s input (p + 2 + k)).channel.serial.midData =
      (input (p + 1)).totalData >>> k := by
    intro k
    induction k with
    | zero =>
        intro _
        have hload := (since_of_strobe (d := d) (s := s) h hstrobe (e := 1) le_rfl
          (by decide)).load (input (p + 1)).tolaEn (input (p + 1)).totalData
        rw [BitVec.ushiftRight_zero]
        exact hload
    | succ k ih =>
        intro hk
        have hshift := (since_of_strobe (d := d) (s := s) h hstrobe (e := k + 2) (by omega)
          (by omega)).shift (by omega) (by omega) (input (p + (k + 2))).tolaEn
          (input (p + (k + 2))).totalData
        rw [show p + (k + 2) = p + 2 + k by omega, ih (by omega)] at hshift
        rw [BitVec.shiftRight_add]
        exact hshift.1
  intro k hk
  have hshift := (since_of_strobe (d := d) (s := s) h hstrobe (e := k + 2) (by omega)
    (by omega)).shift (by omega) (by omega) (input (p + (k + 2))).tolaEn
    (input (p + (k + 2))).totalData
  rw [show p + (k + 2) = p + 2 + k by omega, hmid k (by omega)] at hshift
  have hbit : ((input (p + 1)).totalData >>> k).getLsbD 0 = (input (p + 1)).totalData.getLsbD k := by
    simp
  rw [← hbit, ← hshift.2, show p + 3 + k = p + 2 + k + 1 by omega]
  rfl

end Strobe

/-! ### The corrections -/

/-- The pulse at clock `t` is taken in by `adjust_distance`. -/
def accepted (d : BitVec 16 → BitVec 16 → BitVec 16) (s : State) (input : ℕ → Input) (t : ℕ) :
    Bool :=
  AdjustDistance.accepts (path d s input t).adjust
    ((path d s input t).adjustInput (input t))

theorem accepted_iff (t : ℕ) : accepted d s input t = true ↔
    (path d s input t).adjust.state = 0 ∧ (path d s input t).peak.timeEn = true := by
  simp [accepted, AdjustDistance.accepts, State.adjustInput]

theorem adEn_iff (c : ℕ) : (path d s input c).adjust.adEn = true ↔
    ∃ t, c = t + 6 ∧ accepted d s input t = true := by
  simp only [accepted, adjust_eq]
  exact AdjustDistance.adEn_iff _ _ c

/-- The list is offered an echo nine clocks after the pulse has been taken in. -/
theorem daEn_iff (c : ℕ) : (path d s input c).da.daEn = true ↔
    ∃ t, c = t + 9 ∧ accepted d s input t = true := by
  match c with
  | 0 | 1 | 2 =>
      refine iff_of_false (fun hen => Bool.false_ne_true hen) (fun ⟨t, hc, _⟩ => by omega)
  | c + 3 =>
      have hen : (path d s input (c + 3)).da.daEn = (path d s input c).adjust.adEn := rfl
      rw [hen, adEn_iff]
      constructor
      · rintro ⟨t, rfl, h⟩
        exact ⟨t, rfl, h⟩
      · rintro ⟨t, hc, h⟩
        exact ⟨t, by omega, h⟩

theorem exists_accepted {c : ℕ} (hbusy : (path d s input c).adjust.state ≠ 0) :
    ∃ t, t < c ∧ c ≤ t + 5 ∧ accepted d s input t = true := by
  simp only [accepted, adjust_eq] at hbusy ⊢
  exact AdjustDistance.exists_accepts _ _ hbusy

/-- Between two pulses that are taken in there are six clocks. -/
theorem accepted_apart {t t' : ℕ} (h : accepted d s input t = true)
    (h' : accepted d s input t' = true) (hlt : t < t') : t + 6 ≤ t' := by
  simp only [accepted, adjust_eq] at h h'
  exact AdjustDistance.accepts_apart _ _ h h' hlt

/-- What becomes of a distance that leaves `adjust_distance` six clocks after clock `t`: the corrections
for the temperature and for the voltage as their registers stand when it passes. -/
def offset (d : BitVec 16 → BitVec 16 → BitVec 16) (s : State) (input : ℕ → Input) (t : ℕ)
    (adDistance : BitVec 16) : BitVec 16 :=
  let warm := (path d s input (t + 7)).tem.correct
    ((path d s input (t + 7)).temInput (input (t + 7))) adDistance
  ((path d s input (t + 8)).da.correct ((warm.setWidth 16).setWidth 18)).setWidth 16

section Stages

variable (d : BitVec 16 → BitVec 16 → BitVec 16) (s : State) (input : ℕ → Input) (c : ℕ)

theorem temEn_eq :
    (path d s input (c + 2)).tem.temEn = (path d s input c).adjust.adEn := rfl

theorem timePluseT_eq : (path d s input (c + 1)).tem.timePluseT =
    if (path d s input c).adjust.adEn then (path d s input c).adjust.timePluseA
    else (path d s input c).tem.timePluseT := rfl

theorem daDistance_eq : (path d s input (c + 1)).da.daDistance =
    if (path d s input c).tem.temEn then
      (path d s input c).da.correct
        (((path d s input c).tem.temDistance.setWidth 16).setWidth 18)
    else (path d s input c).da.daDistance := rfl

theorem temDistance_eq : (path d s input (c + 1)).tem.temDistance =
    (path d s input c).tem.correct ((path d s input c).temInput (input c))
      (path d s input c).adjust.adDistance := rfl

end Stages

section Accepted

variable {t : ℕ} (h : accepted d s input t = true)

include h

theorem adEn_of_accepted : (path d s input (t + 6)).adjust.adEn = true :=
  (adEn_iff _).mpr ⟨t, rfl, h⟩

theorem not_adEn_of_accepted {k : ℕ} (hlo : 7 ≤ k) (hhi : k ≤ 11) :
    (path d s input (t + k)).adjust.adEn = false := by
  rw [Bool.eq_false_iff, Ne, adEn_iff]
  rintro ⟨t', ht', h'⟩
  have := accepted_apart h h' (by omega)
  omega

/-- What leaves `adjust_distance`. The distance stands still while it is corrected. -/
theorem adDistance_of_accepted {c : AdjustDistance.Settings}
    (hc : ∀ k, 1 ≤ k → k ≤ 4 → (input (t + k)).settings = c) :
    (path d s input (t + 7)).adjust.adDistance = AdjustDistance.adjusted c
        (path d s input t).peak.timePluse (path d s input (t + 4)).peak.midDistance ∧
      (path d s input (t + 6)).adjust.timePluseA =
        (((path d s input t).peak.timePluse <<< 2).extractLsb' 2 10).setWidth 12 := by
  have haccepts := h
  simp only [accepted, adjust_eq] at haccepts
  have hvalue := AdjustDistance.adDistance_of_accepts s.adjust haccepts hc
  have hidle := AdjustDistance.state_of_accepts s.adjust _ haccepts
  rw [adjust_eq, adjust_eq]
  exact ⟨(AdjustDistance.adDistance_of_idle hidle).trans hvalue.1, hvalue.2⟩

/-- **The echo that the list is offered for a pulse taken in.** -/
theorem echo_of_accepted {c : AdjustDistance.Settings}
    (hc : ∀ k, 1 ≤ k → k ≤ 4 → (input (t + k)).settings = c) :
    (path d s input (t + 9)).echo =
      { adEn := true
        adDistance := offset d s input t (AdjustDistance.adjusted c
          (path d s input t).peak.timePluse (path d s input (t + 4)).peak.midDistance)
        timePluse := (path d s input t).peak.timePluse.setWidth 8 } := by
  obtain ⟨hdistance, hwidth⟩ := adDistance_of_accepted h hc
  have hen : (path d s input (t + 8)).tem.temEn = true :=
    (temEn_eq d s input (t + 6)).trans (adEn_of_accepted h)
  have hda : (path d s input (t + 9)).da.daDistance.setWidth 16 =
      offset d s input t (path d s input (t + 7)).adjust.adDistance := by
    rw [daDistance_eq d s input (t + 8), if_pos hen, temDistance_eq d s input (t + 7),
      offset]
  have hpluse : (path d s input (t + 9)).tem.timePluseT =
      (path d s input (t + 6)).adjust.timePluseA := by
    rw [timePluseT_eq d s input (t + 8), if_neg (by simp [not_adEn_of_accepted h]),
      timePluseT_eq d s input (t + 7), if_neg (by simp [not_adEn_of_accepted h]),
      timePluseT_eq d s input (t + 6), if_pos (adEn_of_accepted h)]
  have hbits (w : BitVec 12) :
      (((w <<< 2).extractLsb' 2 10).setWidth 12).setWidth 8 = w.setWidth 8 := by
    ext i hi
    simp [show i < 10 by omega, show 2 + i < 12 by omega, show i < 12 by omega, show 1 < 2 + i by omega]
  rw [State.echo, (daEn_iff _).mpr ⟨t, rfl, h⟩, hda, hdistance, hpluse, hwidth, hbits]

end Accepted

/-! ### The list -/

/-- The list after the echoes `ds`, the oldest in the highest place. -/
def packDistance (ds : List (BitVec 16)) : BitVec 80 :=
  ds.foldl (fun mult d => mult.setWidth 64 ++ d) 0

def packPluse (ws : List (BitVec 8)) : BitVec 40 :=
  ws.foldl (fun mult w => mult.setWidth 32 ++ w) 0

/-- The list takes an echo in clock `c`. -/
def takes (d : BitVec 16 → BitVec 16 → BitVec 16) (s : State) (input : ℕ → Input) (c : ℕ) :
    Bool :=
  (path d s input c).da.daEn && (path d s input c).channel.serial.dataEn &&
    decide ((path d s input c).channel.list.multCnt.toNat < 5)

/-- The echo that is offered in clock `c`. -/
def offer (d : BitVec 16 → BitVec 16 → BitVec 16) (s : State) (input : ℕ → Input) (c : ℕ) :
    BitVec 16 × BitVec 8 :=
  ((path d s input c).echo.adDistance, (path d s input c).echo.timePluse)

/-- The echoes that are taken in the first `n` clocks of the window behind a strobe at `p`, with their
clocks. -/
def takenBy (d : BitVec 16 → BitVec 16 → BitVec 16) (s : State) (input : ℕ → Input) (p n : ℕ) :
    List (ℕ × BitVec 16 × BitVec 8) :=
  ((List.range n).filter fun k => takes d s input (p + 3 + k)).map
    fun k => (k, offer d s input (p + 3 + k))

/-- The clocks in which an echo is offered. -/
def offered (d : BitVec 16 → BitVec 16 → BitVec 16) (s : State) (input : ℕ → Input) (p n : ℕ) :
    List ℕ :=
  (List.range n).filter fun k => (path d s input (p + 3 + k)).da.daEn

theorem offered_succ (p n : ℕ) : offered d s input p (n + 1) =
    offered d s input p n ++
      if (path d s input (p + 3 + n)).da.daEn then [n] else [] := by
  rw [offered, List.range_succ, List.filter_append, List.filter_singleton, Bool.cond_eq_ite]
  rfl

theorem takenBy_succ (p n : ℕ) : takenBy d s input p (n + 1) =
    takenBy d s input p n ++
      if takes d s input (p + 3 + n) then [(n, offer d s input (p + 3 + n))] else [] := by
  rw [takenBy, List.range_succ, List.filter_append, List.filter_singleton, List.map_append,
    Bool.cond_eq_ite]
  split <;> rfl

section List

variable (c : ℕ)

theorem list_eq : (path d s input (c + 1)).channel.list =
    MaxDistance.step (path d s input c).channel.list
      (path d s input c).channel.serial.dataEn (path d s input c).echo := rfl

theorem multCnt_eq : (path d s input (c + 1)).channel.list.multCnt =
    if (path d s input c).channel.serial.dataEn then
      if (path d s input c).channel.list.multCnt.toNat < 5 then
        if (path d s input c).da.daEn then (path d s input c).channel.list.multCnt + 1
        else (path d s input c).channel.list.multCnt
      else 5
    else 0 := by
  have hen : (path d s input c).echo.adEn = (path d s input c).da.daEn := rfl
  rw [list_eq, MaxDistance.step, MaxDistance.listStep, hen]
  split_ifs <;> rfl

variable {c}

theorem list_of_takes (h : takes d s input c = true) :
    (path d s input (c + 1)).channel.list.multDistance =
        (path d s input c).channel.list.multDistance.setWidth 64 ++
          (offer d s input c).1 ∧
      (path d s input (c + 1)).channel.list.multPluse =
        (path d s input c).channel.list.multPluse.setWidth 32 ++
          (offer d s input c).2 := by
  simp only [takes, Bool.and_eq_true, decide_eq_true_eq] at h
  obtain ⟨⟨hen, hdata⟩, hcnt⟩ := h
  have hen' : (path d s input c).echo.adEn = true := hen
  rw [list_eq]
  simp [MaxDistance.step, MaxDistance.listStep, hdata, hcnt, hen', offer]

theorem list_of_not_takes (h : takes d s input c = false)
    (hrise : (path d s input c).channel.list.dataEnRise = false) :
    (path d s input (c + 1)).channel.list.multDistance =
        (path d s input c).channel.list.multDistance ∧
      (path d s input (c + 1)).channel.list.multPluse =
        (path d s input c).channel.list.multPluse := by
  have hen : (path d s input c).echo.adEn = (path d s input c).da.daEn := rfl
  have htakes : ¬ ((path d s input c).da.daEn = true ∧
      (path d s input c).channel.serial.dataEn = true ∧
      (path d s input c).channel.list.multCnt.toNat < 5) := by
    rintro ⟨h1, h2, h3⟩
    simp [takes, h1, h2, h3] at h
  rw [list_eq, MaxDistance.step, MaxDistance.listStep, hen, hrise]
  split_ifs <;> simp_all

/-- With its second clock a window empties the list, unless it takes an echo. -/
theorem list_of_rise (hdata : (path d s input c).channel.serial.dataEn = true)
    (hcnt : (path d s input c).channel.list.multCnt = 0)
    (hen : (path d s input c).da.daEn = false)
    (hrise : (path d s input c).channel.list.dataEnRise = true) :
    (path d s input (c + 1)).channel.list.multDistance = 0 ∧
      (path d s input (c + 1)).channel.list.multPluse = 0 := by
  have hen' : (path d s input c).echo.adEn = false := hen
  rw [list_eq]
  simp [MaxDistance.step, MaxDistance.listStep, hdata, hcnt, hen', hrise]

theorem dataEnRise_eq (c : ℕ) : (path d s input (c + 2)).channel.list.dataEnRise =
    (!(path d s input c).channel.serial.dataEn &&
      (path d s input (c + 1)).channel.serial.dataEn) := by
  have hpair : (path d s input (c + 2)).channel.list.dataEnR =
      ((path d s input c).channel.serial.dataEn,
        (path d s input (c + 1)).channel.serial.dataEn) := rfl
  rw [MaxDistance.State.dataEnRise, hpair]
  cases (path d s input c).channel.serial.dataEn <;>
    cases (path d s input (c + 1)).channel.serial.dataEn <;> rfl

end List

section Shot

variable (h : Strobes input) {p : ℕ} (hstrobe : (input p).tolaEn = true)

include h hstrobe

/-- The list has taken the first five of the echoes that have been offered. -/
theorem takenBy_eq : ∀ n ≤ 400,
    (path d s input (p + 3 + n)).channel.list.multCnt.toNat =
        min 5 (offered d s input p n).length ∧
      takenBy d s input p n = ((offered d s input p n).take 5).map
        fun k => (k, offer d s input (p + 3 + k)) := by
  intro n
  induction n with
  | zero =>
      intro _
      have hlow := dataEn_outside (d := d) (s := s) h hstrobe (c := p + 2) (by omega)
        (by omega) (by omega)
      refine ⟨?_, rfl⟩
      rw [Nat.add_zero, multCnt_eq (p + 2), hlow]
      rfl
  | succ n ih =>
      intro hn
      obtain ⟨hcnt, htaken⟩ := ih (by omega)
      have hdata := dataEn_window (d := d) (s := s) h hstrobe (c := p + 3 + n) (by omega)
        (by omega)
      have hnext := (multCnt_eq (p + 3 + n)).trans (if_pos hdata)
      have htakes : takes d s input (p + 3 + n) =
          ((path d s input (p + 3 + n)).da.daEn &&
            decide ((offered d s input p n).length < 5)) := by
        rw [takes, hdata, Bool.and_true, hcnt]
        congr 2
        exact propext (by omega)
      rw [offered_succ, takenBy_succ, htakes, htaken]
      rw [show p + 3 + (n + 1) = p + 3 + n + 1 from rfl, hnext]
      cases hen : (path d s input (p + 3 + n)).da.daEn with
      | false =>
          rw [hen] at hnext
          simp only [Bool.false_and, Bool.false_eq_true, if_false, List.append_nil, and_true]
          split
          · exact hcnt
          · rename_i hfull
            rw [hcnt] at hfull
            have hfive : (5 : BitVec 3).toNat = 5 := rfl
            omega
      | true =>
          simp only [Bool.true_and, if_true, decide_eq_true_eq, List.length_append,
            List.length_singleton]
          by_cases hfull : (offered d s input p n).length < 5
          · have hone : (1 : BitVec 3).toNat = 1 := rfl
            rw [if_pos (by omega), if_pos hfull, BitVec.toNat_add, hcnt, hone,
              List.take_of_length_le hfull.le, List.take_of_length_le (by
                rw [List.length_append, List.length_singleton]; omega), List.map_append]
            exact ⟨by omega, rfl⟩
          · have hfive : (5 : BitVec 3).toNat = 5 := rfl
            rw [if_neg (by omega), if_neg hfull, List.append_nil,
              List.take_append_of_le_length (by omega)]
            exact ⟨by omega, rfl⟩

/-- In the window the list holds what it has taken. -/
theorem list_window (hfirst : (path d s input (p + 3)).da.daEn = false)
    (hsecond : (path d s input (p + 4)).da.daEn = false) : ∀ n, 2 ≤ n → n ≤ 400 →
      (path d s input (p + 3 + n)).channel.list.multDistance =
          packDistance ((takenBy d s input p n).map fun e => e.2.1) ∧
        (path d s input (p + 3 + n)).channel.list.multPluse =
          packPluse ((takenBy d s input p n).map fun e => e.2.2) := by
  have hbefore := dataEn_outside (d := d) (s := s) h hstrobe (c := p + 2) (by omega)
    (by omega) (by omega)
  have hdata {c : ℕ} := dataEn_window (d := d) (s := s) h hstrobe (c := c)
  intro n hlo
  induction n, hlo using Nat.le_induction with
  | base =>
      intro _
      have hnone {c : ℕ} (hen : (path d s input c).da.daEn = false) :
          takes d s input c = false := by simp [takes, hen]
      have hempty : takenBy d s input p 2 = [] := by
        rw [takenBy_succ, takenBy_succ, Nat.add_zero, hnone hfirst, hnone (c := p + 3 + 1) hsecond]
        rfl
      have hcnt : (path d s input (p + 4)).channel.list.multCnt = 0 := by
        rw [← BitVec.toNat_inj, show p + 4 = p + 3 + 1 from rfl,
          (takenBy_eq h hstrobe 1 (by decide)).1, offered_succ, Nat.add_zero, hfirst]
        rfl
      have hrise : (path d s input (p + 4)).channel.list.dataEnRise = true := by
        rw [show p + 4 = p + 2 + 2 from rfl, dataEnRise_eq, hbefore,
          hdata (c := p + 2 + 1) (by omega) (by omega)]
        rfl
      rw [hempty]
      exact list_of_rise (hdata (by omega) (by omega)) hcnt hsecond hrise
  | succ n hlo ih =>
      intro hhi
      obtain ⟨hdistance, hpluse⟩ := ih (by omega)
      rw [takenBy_succ, ← Nat.add_assoc]
      cases htakes : takes d s input (p + 3 + n) with
      | false =>
          obtain ⟨k, rfl⟩ : ∃ k, n = k + 2 := ⟨n - 2, by omega⟩
          have hrise : (path d s input (p + 3 + (k + 2))).channel.list.dataEnRise = false := by
            rw [← Nat.add_assoc, dataEnRise_eq, hdata (c := p + 3 + k) (by omega) (by omega)]
            rfl
          obtain ⟨hdistance', hpluse'⟩ := list_of_not_takes htakes hrise
          rw [hdistance', hpluse', hdistance, hpluse]
          simp
      | true =>
          obtain ⟨hdistance', hpluse'⟩ := list_of_takes htakes
          rw [hdistance', hpluse', hdistance, hpluse]
          simp [packDistance, packPluse]

theorem list_done : ∀ k ≤ 4,
    (path d s input (p + 403 + k)).channel.list.multDistance =
        (path d s input (p + 403)).channel.list.multDistance ∧
      (path d s input (p + 403 + k)).channel.list.multPluse =
        (path d s input (p + 403)).channel.list.multPluse := by
  intro k
  induction k with
  | zero => exact fun _ => ⟨rfl, rfl⟩
  | succ k ih =>
      intro hk
      have hlow := dataEn_outside (d := d) (s := s) h hstrobe (c := p + 403 + k) (by omega)
        (by omega) (by omega)
      obtain ⟨hdistance, hpluse⟩ := ih (by omega)
      obtain ⟨hpluse', hdistance'⟩ := MaxDistance.step_list hlow
        (path d s input (p + 403 + k)).channel.list (path d s input (p + 403 + k)).echo
      exact ⟨hdistance'.trans hdistance, hpluse'.trans hpluse⟩

theorem targetValid_of_strobe :
    (path d s input (p + 407)).channel.list.targetValid = true := by
  have hcount (k : ℕ) (hk : k < 4) {a : ℕ}
      (hcounted : MaxDistance.Counted (path d s input (p + 403 + k)).channel.list a) :
      MaxDistance.Counted (path d s input (p + 403 + (k + 1))).channel.list (a + 1) := by
    have hlow := dataEn_outside (d := d) (s := s) h hstrobe (c := p + 403 + k) (by omega)
      (by omega) (by omega)
    have hnext := hcounted.step (path d s input (p + 403 + k)).channel.serial.dataEn
      (path d s input (p + 403 + k)).echo
    rw [hlow] at hnext
    rw [← Nat.add_assoc, list_eq, hlow]
    exact hnext
  have hstart : MaxDistance.Counted (path d s input (p + 403 + 0)).channel.list 0 := by
    have hdata := dataEn_window (d := d) (s := s) h hstrobe (c := p + 402) (by omega)
      (by omega)
    have hzero : (path d s input (p + 403)).channel.list.vaild = 0 := by
      rw [list_eq (p + 402), MaxDistance.step, hdata]
      rfl
    refine ⟨fun _ => ?_, fun h => absurd h (by decide)⟩
    rw [Nat.add_zero, hzero]
    rfl
  have hthree := hcount 2 (by decide) (hcount 1 (by decide) (hcount 0 (by decide) hstart))
  rw [list_eq (p + 406)]
  exact hthree.step_targetValid.mpr rfl

/-! ### What an earlier return leaves -/

theorem timeEn_before {c : ℕ} (hlo : p ≤ c + 13) (hhi : c ≤ p + 3) :
    (path d s input c).peak.timeEn = (path d s input (p + 3)).peak.timeEn := by
  have hlow (t : ℕ) (hct : c ≤ t) (hlt : t < p + 3) :
      ((path d s input t).peakInput (input t)).dataEn = false :=
    dataEn_outside h hstrobe (by omega) (by omega) (by omega)
  have hkeep := @PeakDiv.timeEn_of_low (fun t => (path d s input t).peakInput (input t)) c s.peak
    (p + 3) hhi hlow
  rw [peak_eq, peak_eq]
  exact hkeep.1.symm

theorem timeEn_second : (path d s input (p + 4)).peak.timeEn =
    (path d s input (p + 3)).peak.timeEn2 := by
  have hdata := dataEn_window (d := d) (s := s) h hstrobe (c := p + 3) (by omega) (by omega)
  have hstep : (path d s input (p + 4)).peak.timeEn =
      if (path d s input (p + 3)).channel.serial.dataEn then
        (path d s input (p + 3)).peak.timeEn2
      else (path d s input (p + 3)).peak.timeEn := rfl
  rw [hstep, if_pos hdata]

/-- An enable that stays up until the window begins is taken in shortly before. -/
theorem exists_accepted_before (hen : (path d s input (p + 3)).peak.timeEn = true) :
    ∃ t, p ≤ t + 2 ∧ t ≤ p + 3 ∧ accepted d s input t = true := by
  have hpos : 13 < p := by
    by_contra hle
    have hzero := timeEn_before (d := d) (s := s) h hstrobe (c := 0) (by omega) (by omega)
    rw [hen] at hzero
    exact Bool.false_ne_true hzero
  obtain ⟨c, rfl⟩ : ∃ c, p = c + 2 := ⟨p - 2, by omega⟩
  by_cases hidle : (path d s input c).adjust.state = 0
  · refine ⟨c, by omega, by omega, (accepted_iff c).mpr ⟨hidle, ?_⟩⟩
    rw [timeEn_before h hstrobe (by omega) (by omega), hen]
  · obtain ⟨t, hlt, hle, haccepted⟩ := exists_accepted hidle
    refine ⟨t + 6, by omega, by omega, (accepted_iff _).mpr ⟨?_, ?_⟩⟩
    · simp only [accepted, adjust_eq] at haccepted
      rw [adjust_eq]
      exact AdjustDistance.state_of_accepts s.adjust _ haccepted
    · rw [timeEn_before h hstrobe (by omega) (by omega), hen]

/-- Nothing is offered early in the window exactly where nothing was left. -/
theorem left_iff : ((path d s input (p + 3)).peak.timeEn = false ∧
      (path d s input (p + 3)).peak.timeEn2 = false) ↔
    ∀ k ≤ 10, (path d s input (p + 3 + k)).da.daEn = false := by
  constructor
  · rintro ⟨hfirst, hsecond⟩ k hk
    rw [Bool.eq_false_iff, Ne, daEn_iff]
    rintro ⟨t, ht, haccepted⟩
    have hen := ((accepted_iff t).mp haccepted).2
    rcases Nat.lt_or_ge t (p + 4) with hlt | hge
    · rw [timeEn_before h hstrobe (by omega) (by omega), hfirst] at hen
      exact Bool.false_ne_true hen
    · obtain rfl : t = p + 4 := by omega
      rw [timeEn_second h hstrobe, hsecond] at hen
      exact Bool.false_ne_true hen
  · intro hquiet
    have hfirst : (path d s input (p + 3)).peak.timeEn = false := by
      rw [Bool.eq_false_iff]
      intro hen
      obtain ⟨t, hlo, hhi, haccepted⟩ := exists_accepted_before h hstrobe hen
      have hoffer := (daEn_iff (t + 9)).mpr ⟨t, rfl, haccepted⟩
      obtain ⟨k, hk⟩ : ∃ k, t + 9 = p + 3 + k := ⟨t + 6 - p, by omega⟩
      rw [hk, hquiet k (by omega)] at hoffer
      exact Bool.false_ne_true hoffer
    refine ⟨hfirst, ?_⟩
    rw [Bool.eq_false_iff]
    intro hen
    have hidle : (path d s input (p + 4)).adjust.state = 0 := by
      by_contra hbusy
      obtain ⟨t, hlt, hle, haccepted⟩ := exists_accepted hbusy
      have hen' := ((accepted_iff t).mp haccepted).2
      rw [timeEn_before h hstrobe (by omega) (by omega), hfirst] at hen'
      exact Bool.false_ne_true hen'
    have haccepted : accepted d s input (p + 4) = true :=
      (accepted_iff _).mpr ⟨hidle, by rw [timeEn_second h hstrobe, hen]⟩
    have hoffer := (daEn_iff (p + 13)).mpr ⟨p + 4, rfl, haccepted⟩
    rw [show p + 13 = p + 3 + 10 from rfl, hquiet 10 (by decide)] at hoffer
    exact Bool.false_ne_true hoffer

end Shot

/-! ### The first five echoes -/

/-- The clocks of the window in which `peak_div` reports an echo of this shot. In the first two it can
only report one of an earlier shot. -/
def reports (d : BitVec 16 → BitVec 16 → BitVec 16) (s : State) (input : ℕ → Input) (p : ℕ) :
    List ℕ :=
  (List.range 400).filter fun k => decide (2 ≤ k) && (path d s input (p + 3 + k)).peak.timeEn

/-- The first five of them. -/
def firstFive (d : BitVec 16 → BitVec 16 → BitVec 16) (s : State) (input : ℕ → Input) (p : ℕ) :
    List ℕ := (reports d s input p).take 5

/-- The corrected distance and the width of the echo that is reported in clock `t`. -/
def corrected (d : BitVec 16 → BitVec 16 → BitVec 16) (s : State) (input : ℕ → Input)
    (c : AdjustDistance.Settings) (t : ℕ) : BitVec 16 × BitVec 8 :=
  (offset d s input t (AdjustDistance.adjusted c (path d s input t).peak.timePluse
      (path d s input t).peak.midDistance),
    (path d s input t).peak.timePluse.setWidth 8)

/-- The settings stand still in the window. -/
structure Steady (input : ℕ → Input) (p : ℕ) (c : AdjustDistance.Settings)
    (noise upp : BitVec 8) : Prop where
  settings : ∀ t, p + 3 ≤ t → t ≤ p + 402 → (input t).settings = c
  noiseCnt : ∀ t, p + 3 ≤ t → t ≤ p + 402 → (input t).noiseCnt = noise
  changeTh1 : ∀ t, p + 3 ≤ t → t ≤ p + 402 → (input t).changeTh1 = upp

/-- The list is complete: it takes the first five echoes, each with its own distance and width, nothing
else, and holds them at `target_valid`. -/
structure Complete (d : BitVec 16 → BitVec 16 → BitVec 16) (s : State) (input : ℕ → Input)
    (p : ℕ) (c : AdjustDistance.Settings) : Prop where
  taken : takenBy d s input p 400 = (firstFive d s input p).map
    fun k => (k + 9, corrected d s input c (p + 3 + k))
  targetValid : (path d s input (p + 407)).channel.list.targetValid = true
  multDistance : (path d s input (p + 407)).channel.list.multDistance =
    packDistance ((firstFive d s input p).map fun k =>
      (corrected d s input c (p + 3 + k)).1)
  multPluse : (path d s input (p + 407)).channel.list.multPluse =
    packPluse ((firstFive d s input p).map fun k =>
      (corrected d s input c (p + 3 + k)).2)

/-- Nothing is left of an earlier return, the first five reports are six clocks or more apart and come
early enough, and `mid_distance` still has the distance of each of them four clocks later. -/
structure Kept (d : BitVec 16 → BitVec 16 → BitVec 16) (s : State) (input : ℕ → Input)
    (p : ℕ) : Prop where
  left : (path d s input (p + 3)).peak.timeEn = false ∧
    (path d s input (p + 3)).peak.timeEn2 = false
  apart : ∀ k ∈ firstFive d s input p, ∀ k' ∈ firstFive d s input p, k < k' → k + 6 ≤ k'
  inTime : ∀ k ∈ firstFive d s input p, k + 9 < 400
  own : ∀ k ∈ firstFive d s input p,
    (path d s input (p + 3 + k + 4)).peak.midDistance =
      (path d s input (p + 3 + k)).peak.midDistance

theorem mem_reports {p k : ℕ} : k ∈ reports d s input p ↔
    k < 400 ∧ 2 ≤ k ∧ (path d s input (p + 3 + k)).peak.timeEn = true := by
  rw [reports, List.mem_filter, List.mem_range, Bool.and_eq_true, decide_eq_true_eq]

theorem reports_sorted (p : ℕ) : (reports d s input p).Pairwise (· < ·) :=
  List.pairwise_lt_range.filter _

/-- The pulses of the window that are taken in early enough. -/
def acceptedIn (d : BitVec 16 → BitVec 16 → BitVec 16) (s : State) (input : ℕ → Input)
    (p : ℕ) : List ℕ :=
  (List.range 400).filter fun k => decide (k + 9 < 400) && accepted d s input (p + 3 + k)

section Echoes

variable (h : Strobes input) {p : ℕ} (hstrobe : (input p).tolaEn = true)
  {c : AdjustDistance.Settings} {noise upp : BitVec 8} (hsteady : Steady input p c noise upp)

theorem peakWindow (h : Strobes input) (hstrobe : (input p).tolaEn = true)
    (hsteady : Steady input p c noise upp) :
    PeakDiv.Window (fun t => (path d s input t).peakInput (input t)) (p + 3) noise upp where
  before t hlt hle := dataEn_outside h hstrobe (by omega) (by omega) (by omega)
  dataEn k hk := dataEn_window h hstrobe (by omega) (by omega)
  noiseCnt k hk := hsteady.noiseCnt _ (by omega) (by omega)
  uppWith k hk := hsteady.changeTh1 _ (by omega) (by omega)

/-- Where nothing is offered early, what is offered are the pulses taken in. -/
theorem offered_eq (hquiet : ∀ k ≤ 10, (path d s input (p + 3 + k)).da.daEn = false) :
    offered d s input p 400 = (acceptedIn d s input p).map (· + 9) := by
  have hoffers : (List.range 400) = List.range 9 ++ (List.range 391).map (9 + ·) :=
    List.range_add (n := 9) (m := 391)
  have haccepts : (List.range 400) = List.range 391 ++ (List.range 9).map (391 + ·) :=
    List.range_add (n := 391) (m := 9)
  have hfirst : (List.range 9).filter (fun k => (path d s input (p + 3 + k)).da.daEn) = [] := by
    rw [List.filter_eq_nil_iff]
    intro k hk
    rw [List.mem_range] at hk
    rw [hquiet k (by omega)]
    exact Bool.false_ne_true
  have hlast : (((List.range 9).map (391 + ·)).filter fun k =>
      decide (k + 9 < 400) && accepted d s input (p + 3 + k)) = [] := by
    rw [List.filter_eq_nil_iff]
    intro k hk
    obtain ⟨j, -, rfl⟩ := List.mem_map.mp hk
    simp only [Bool.and_eq_true, decide_eq_true_eq]
    omega
  have hsame : ∀ k ∈ List.range 391, (path d s input (p + 3 + (9 + k))).da.daEn =
      (decide (k + 9 < 400) && accepted d s input (p + 3 + k)) := by
    intro k hk
    rw [List.mem_range] at hk
    rw [decide_eq_true (show k + 9 < 400 by omega), Bool.true_and, Bool.eq_iff_iff, daEn_iff]
    constructor
    · rintro ⟨t, ht, haccepted⟩
      obtain rfl : t = p + 3 + k := by omega
      exact haccepted
    · exact fun haccepted => ⟨p + 3 + k, by omega, haccepted⟩
  calc offered d s input p 400
      = ((List.range 391).map (9 + ·)).filter
          fun k => (path d s input (p + 3 + k)).da.daEn := by
        rw [offered, hoffers, List.filter_append, hfirst, List.nil_append]
    _ = ((List.range 391).filter
          fun k => (path d s input (p + 3 + (9 + k))).da.daEn).map (9 + ·) := by
        rw [List.filter_map]
        rfl
    _ = ((List.range 391).filter
          fun k => decide (k + 9 < 400) && accepted d s input (p + 3 + k)).map (· + 9) := by
        rw [List.filter_congr hsame]
        exact List.map_congr_left fun k _ => Nat.add_comm 9 k
    _ = (acceptedIn d s input p).map (· + 9) := by
        rw [acceptedIn, haccepts, List.filter_append, hlast, List.append_nil]

/-- The list has taken the first five pulses that were taken in early enough. -/
theorem takenBy_accepted (h : Strobes input) (hstrobe : (input p).tolaEn = true)
    (hquiet : ∀ k ≤ 10, (path d s input (p + 3 + k)).da.daEn = false) :
    takenBy d s input p 400 = ((acceptedIn d s input p).take 5).map
      fun k => (k + 9, offer d s input (p + 3 + (k + 9))) := by
  rw [(takenBy_eq h hstrobe 400 le_rfl).2, offered_eq hquiet, ← List.map_take, List.map_map]
  rfl

/-- A list that takes nothing but echoes of the shot is offered nothing early. -/
theorem quiet_of_taken (h : Strobes input) (hstrobe : (input p).tolaEn = true)
    (htaken : takenBy d s input p 400 = (firstFive d s input p).map
      fun k => (k + 9, corrected d s input c (p + 3 + k))) :
    ∀ k ≤ 10, (path d s input (p + 3 + k)).da.daEn = false := by
  have hrange : List.range 400 = List.range 11 ++ (List.range 389).map (11 + ·) :=
    List.range_add (n := 11) (m := 389)
  intro k hk
  rw [Bool.eq_false_iff]
  intro hen
  have hmem : k ∈ (List.range 11).filter fun k => (path d s input (p + 3 + k)).da.daEn := by
    rw [List.mem_filter, List.mem_range]
    exact ⟨by omega, hen⟩
  -- the first of the early offers is taken
  obtain ⟨a, early, hearly⟩ := List.exists_cons_of_ne_nil (List.ne_nil_of_mem hmem)
  have ha : a < 11 := by
    have : a ∈ (List.range 11).filter fun k => (path d s input (p + 3 + k)).da.daEn := by
      rw [hearly]
      exact List.mem_cons_self
    exact List.mem_range.mp (List.mem_filter.mp this).1
  have hoffered : a ∈ (offered d s input p 400).take 5 := by
    rw [offered, hrange, List.filter_append, hearly, List.cons_append, List.take_succ_cons]
    exact List.mem_cons_self
  have hentry : (a, offer d s input (p + 3 + a)) ∈ takenBy d s input p 400 := by
    rw [(takenBy_eq h hstrobe 400 le_rfl).2]
    exact List.mem_map.mpr ⟨a, hoffered, rfl⟩
  rw [htaken, List.mem_map] at hentry
  obtain ⟨k', hk', heq⟩ := hentry
  have hclock : k' + 9 = a := congrArg Prod.fst heq
  have hreport := (mem_reports.mp (List.mem_of_mem_take hk')).2.1
  omega

section Left

variable (h : Strobes input) (hstrobe : (input p).tolaEn = true)
  (hleft : (path d s input (p + 3)).peak.timeEn = false ∧
    (path d s input (p + 3)).peak.timeEn2 = false)

include h hstrobe hleft

/-- Where nothing was left, the pulses taken in from two clocks before the window on are reports of
the shot. -/
theorem two_le_of_timeEn {t : ℕ} (hlo : p ≤ t + 13)
    (hen : (path d s input t).peak.timeEn = true) : p + 5 ≤ t := by
  by_contra hlt
  rcases Nat.lt_or_ge t (p + 4) with hlt | hge
  · rw [timeEn_before h hstrobe (by omega) (by omega), hleft.1] at hen
    exact Bool.false_ne_true hen
  · obtain rfl : t = p + 4 := by omega
    rw [timeEn_second h hstrobe, hleft.2] at hen
    exact Bool.false_ne_true hen

theorem reports_of_accepted : ∀ k ∈ List.range 400,
    (decide (k + 9 < 400) && accepted d s input (p + 3 + k)) = true →
      (decide (2 ≤ k) && (path d s input (p + 3 + k)).peak.timeEn) = true := by
  intro k _ haccepted
  rw [Bool.and_eq_true] at haccepted
  have hen := ((accepted_iff _).mp haccepted.2).2
  have := two_le_of_timeEn h hstrobe hleft (t := p + 3 + k) (by omega) hen
  rw [hen, Bool.and_true, decide_eq_true_eq]
  omega

/-- Reports that are far enough apart find the machine idle. -/
theorem accepted_of_apart
    (hapart : ∀ k ∈ firstFive d s input p, ∀ k' ∈ firstFive d s input p,
      k < k' → k + 6 ≤ k') {k : ℕ} (hk : k ∈ firstFive d s input p) :
    accepted d s input (p + 3 + k) = true := by
  obtain ⟨hlt, hlo, hen⟩ := mem_reports.mp (List.mem_of_mem_take hk)
  rw [accepted_iff]
  refine ⟨?_, hen⟩
  by_contra hbusy
  obtain ⟨t, hbefore, hnear, haccepted⟩ := exists_accepted hbusy
  have hen' := ((accepted_iff t).mp haccepted).2
  have hfirst := two_le_of_timeEn h hstrobe hleft (by omega) hen'
  obtain ⟨j, rfl⟩ : ∃ j, t = p + 3 + j := ⟨t - (p + 3), by omega⟩
  have hj : j ∈ firstFive d s input p :=
    Sampled.mem_take_of_lt (reports_sorted p) (mem_reports.mpr ⟨by omega, by omega, hen'⟩) hk
      (by omega)
  have := hapart j hj k hk (by omega)
  omega

end Left

/-- What is offered for a report that is taken in. -/
theorem offer_of_accepted (hsteady : Steady input p c noise upp) {k : ℕ} (hk : k + 9 < 400)
    (haccepted : accepted d s input (p + 3 + k) = true) :
    offer d s input (p + 3 + (k + 9)) =
      (offset d s input (p + 3 + k) (AdjustDistance.adjusted c
          (path d s input (p + 3 + k)).peak.timePluse
          (path d s input (p + 3 + k + 4)).peak.midDistance),
        (path d s input (p + 3 + k)).peak.timePluse.setWidth 8) := by
  have hecho := echo_of_accepted haccepted (c := c)
    fun j hlo hhi => hsteady.settings _ (by omega) (by omega)
  rw [offer, ← Nat.add_assoc, hecho]

theorem offset_injective {t : ℕ} {a b : BitVec 16}
    (heq : offset d s input t a = offset d s input t b) : a = b := by
  unfold offset at heq
  have hda := AdjustDistance.cut_sub heq
  have hcut (x : BitVec 18) : ((x.setWidth 16).setWidth 18).setWidth 16 = x.setWidth 16 := by
    rw [BitVec.setWidth_setWidth_of_le _ (by decide), BitVec.setWidth_eq]
  have hback (x : BitVec 16) : (x.setWidth 18).setWidth 16 = x := by
    rw [BitVec.setWidth_setWidth_of_le _ (by decide), BitVec.setWidth_eq]
  rw [hcut, hcut] at hda
  unfold TemAdjust.State.correct at hda
  split at hda
  · have := AdjustDistance.cut_add hda
    rwa [hback, hback] at this
  · have := AdjustDistance.cut_sub hda
    rwa [hback, hback] at this

section Main

variable (h : Strobes input) (hstrobe : (input p).tolaEn = true)
  (hsteady : Steady input p c noise upp)

include h hstrobe hsteady

/-- **What a complete list says about the reports.** -/
theorem kept_of_taken (htaken : takenBy d s input p 400 = (firstFive d s input p).map
      fun k => (k + 9, corrected d s input c (p + 3 + k))) : Kept d s input p := by
  have hquiet := quiet_of_taken h hstrobe htaken
  rw [takenBy_accepted h hstrobe hquiet] at htaken
  -- the clocks agree, and so do the reports
  have hclocks : (acceptedIn d s input p).take 5 = firstFive d s input p := by
    have hmap := congrArg (List.map fun e => e.1) htaken
    rw [List.map_map, List.map_map] at hmap
    exact List.map_injective_iff.mpr (fun a b hab => Nat.add_right_cancel hab) hmap
  rw [hclocks, List.map_inj_left] at htaken
  have hmem : ∀ k ∈ firstFive d s input p,
      k + 9 < 400 ∧ accepted d s input (p + 3 + k) = true := by
    intro k hk
    rw [← hclocks] at hk
    have := (List.mem_filter.mp (List.mem_of_mem_take hk)).2
    rwa [Bool.and_eq_true, decide_eq_true_eq] at this
  refine ⟨(left_iff h hstrobe).mpr hquiet, fun k hk k' hk' hlt => ?_, fun k hk => (hmem k hk).1,
    fun k hk => ?_⟩
  · have := accepted_apart (hmem k hk).2 (hmem k' hk').2 (by omega)
    omega
  · obtain ⟨hlt, haccepted⟩ := hmem k hk
    have hoffer := congrArg Prod.snd (htaken k hk)
    rw [offer_of_accepted hsteady hlt haccepted, corrected] at hoffer
    have hcut := AdjustDistance.adjusted_injective (offset_injective (congrArg Prod.fst hoffer))
    have hbound (j : ℕ) (hj : j ≤ 400) :
        (path d s input (p + 3 + j)).peak.midDistance.toNat < 65536 := by
      have := (peakWindow (d := d) (s := s) h hstrobe hsteady).midDistance_lt s.peak j hj
      rwa [peak_eq]
    have hnow := hbound k (by omega)
    have hlater := hbound (k + 4) (by omega)
    rw [← BitVec.toNat_inj, BitVec.toNat_setWidth, BitVec.toNat_setWidth] at hcut
    rw [← BitVec.toNat_inj]
    rw [← Nat.add_assoc] at hlater
    omega

/-- **What the reports say about the list.** -/
theorem complete_of_kept (hkept : Kept d s input p) : Complete d s input p c := by
  obtain ⟨hleft, hapart, htime, hown⟩ := hkept
  have hquiet := (left_iff h hstrobe).mp hleft
  have haccepted := fun k hk => accepted_of_apart h hstrobe hleft hapart (k := k) hk
  have hclocks : (acceptedIn d s input p).take 5 = firstFive d s input p := by
    refine Sampled.take_filter_eq (reports_of_accepted h hstrobe hleft) fun k hk => ?_
    rw [Bool.and_eq_true, decide_eq_true_eq]
    exact ⟨htime k hk, haccepted k hk⟩
  have htaken : takenBy d s input p 400 = (firstFive d s input p).map
      fun k => (k + 9, corrected d s input c (p + 3 + k)) := by
    rw [takenBy_accepted h hstrobe hquiet, hclocks, List.map_inj_left]
    intro k hk
    rw [offer_of_accepted hsteady (htime k hk) (haccepted k hk), hown k hk, corrected]
  obtain ⟨hdistance, hpluse⟩ := list_window h hstrobe (hquiet 0 (by decide)) (hquiet 1 (by decide))
    400 (by decide) le_rfl
  obtain ⟨hdistance', hpluse'⟩ := list_done (d := d) (s := s) h hstrobe 4 le_rfl
  rw [htaken, List.map_map] at hdistance hpluse
  exact ⟨htaken, targetValid_of_strobe h hstrobe, hdistance'.trans hdistance,
    hpluse'.trans hpluse⟩

/-- **The echoes of a shot.** Its list is complete exactly where the reports of `peak_div` are kept
apart. -/
theorem complete_iff_kept : Complete d s input p c ↔ Kept d s input p :=
  ⟨fun hcomplete => kept_of_taken h hstrobe hsteady hcomplete.taken,
    fun hkept => complete_of_kept h hstrobe hsteady hkept⟩

end Main

/-! ### The reports of a return -/

section Return

variable (h : Strobes input) (hstrobe : (input p).tolaEn = true)
  (hsteady : Steady input p c noise upp)

include h hstrobe hsteady

theorem timeEn_of_passes {k : ℕ} (hlo : 2 ≤ k) (hhi : k < 400) :
    (path d s input (p + 3 + k)).peak.timeEn = (decide (6 ≤ k) &&
      PeakDiv.passes noise upp (input (p + 1)).totalData.getLsbD (k - 6)) := by
  rw [peak_eq, (peakWindow h hstrobe hsteady).timeEn_of_passes s.peak hlo hhi]
  rcases Nat.lt_or_ge k 6 with hearly | hlate
  · rw [decide_eq_false (by omega), Bool.false_and, Bool.false_and]
  · congr 1
    exact PeakDiv.passes_congr fun i hi => serialData_of_strobe h hstrobe i (by omega)

/-- The reports are those of the runs of the return that pass the noise test. -/
theorem reports_eq : reports d s input p = (List.range 400).filter fun k =>
    decide (6 ≤ k) && PeakDiv.passes noise upp (input (p + 1)).totalData.getLsbD (k - 6) := by
  refine List.filter_congr fun k hk => ?_
  rw [List.mem_range] at hk
  rcases Nat.lt_or_ge k 2 with hearly | hlate
  · rw [decide_eq_false (by omega), decide_eq_false (by omega), Bool.false_and, Bool.false_and]
  · rw [timeEn_of_passes h hstrobe hsteady hlate hk, decide_eq_true hlate, Bool.true_and]

/-- A report keeps its distance if no other run ends in the next six samples. -/
theorem own_of_alone {f : ℕ} (hf : f + 10 ≤ 400)
    (hpasses : PeakDiv.passes noise upp (input (p + 1)).totalData.getLsbD f = true)
    (halone : ∀ j < 6, Sampled.falls (input (p + 1)).totalData.getLsbD (f + 1 + j) = false) :
    (path d s input (p + 3 + (f + 6) + 4)).peak.midDistance =
      (path d s input (p + 3 + (f + 6))).peak.midDistance := by
  have hbits (k : ℕ) (hk : k < 400) := serialData_of_strobe (d := d) (s := s) h hstrobe k hk
  rw [peak_eq, peak_eq]
  refine (peakWindow (d := d) (s := s) h hstrobe hsteady).midDistance_of_alone s.peak hf ?_
    fun j hj => ?_
  · rw [← hpasses]
    exact PeakDiv.passes_congr fun i hi => hbits i (by omega)
  · rw [← halone j hj]
    exact Sampled.falls_congr fun i hi => hbits i (by omega)

end Return

end Echoes

/-! ### Two shots -/

/-- One shot at clock 0 with the return `bits`. -/
def oneShot (bits : BitVec 400) (t : ℕ) : Input where
  tolaEn := t == 0
  totalData := bits
  noiseCnt := 4
  changeTh1 := 150
  settings := AdjustDistance.mild
  pointTem := 25
  correctTem1 := 4
  correctTem2 := 4
  temCount := 30
  dacValue := 0x800
  dacMax := 200
  dacMin := 100

theorem strobes_oneShot (bits : BitVec 400) : Strobes (oneShot bits) := by
  intro p q hp hq hlt
  simp only [oneShot, beq_iff_eq] at hp hq
  omega

theorem steady_oneShot (bits : BitVec 400) :
    Steady (oneShot bits) 0 AdjustDistance.mild 4 150 :=
  ⟨fun _ _ _ => rfl, fun _ _ _ => rfl, fun _ _ _ => rfl⟩

/-- All registers at zero. -/
def blank : State where
  channel := ⟨⟨0, 0, 0, 0, false, false⟩, MaxDistance.State.reset⟩
  peak := PeakDiv.blank
  adjust := AdjustDistance.blank
  tem := ⟨0, 0, false, 0, false, 0, 0⟩
  da := ⟨0, 0, false, 0, fun _ => 0, 0⟩

/-- The samples 20, …, 29 and 50, …, 69. -/
def apartPulses : BitVec 400 := 0x3ff <<< 20 ||| 0xfffff <<< 50

theorem reports_apartPulses :
    firstFive BitVec.udiv blank (oneShot apartPulses) 0 = [36, 76] := by
  rw [firstFive, reports_eq (strobes_oneShot apartPulses) rfl (steady_oneShot apartPulses)]
  decide +kernel

theorem kept_apartPulses : Kept BitVec.udiv blank (oneShot apartPulses) 0 := by
  have hown {f : ℕ} (hf : f + 10 ≤ 400)
      (hpasses : PeakDiv.passes 4 150 apartPulses.getLsbD f = true)
      (halone : ∀ j < 6, Sampled.falls apartPulses.getLsbD (f + 1 + j) = false) :=
    own_of_alone (d := BitVec.udiv) (s := blank) (strobes_oneShot apartPulses) rfl
      (steady_oneShot apartPulses) hf hpasses halone
  constructor
  · exact ⟨by decide +kernel, by decide +kernel⟩
  all_goals simp only [reports_apartPulses, List.forall_mem_cons, List.not_mem_nil,
    false_imp_iff, implies_true, and_true]
  · decide
  · decide
  · exact ⟨hown (f := 30) (by decide) (by decide +kernel) (by decide +kernel),
      hown (f := 70) (by decide) (by decide +kernel) (by decide +kernel)⟩

theorem complete_apartPulses :
    Complete BitVec.udiv blank (oneShot apartPulses) 0 AdjustDistance.mild :=
  (complete_iff_kept (strobes_oneShot apartPulses) rfl (steady_oneShot apartPulses)).mpr
    kept_apartPulses

/-- The samples 20, …, 29 and 31, …, 35. -/
def closePulses : BitVec 400 := 0x3ff <<< 20 ||| 0x1f <<< 31

theorem reports_closePulses :
    firstFive BitVec.udiv blank (oneShot closePulses) 0 = [36, 42] := by
  rw [firstFive, reports_eq (strobes_oneShot closePulses) rfl (steady_oneShot closePulses)]
  decide +kernel

/-- The first echo gets the distance of the second. -/
theorem echo_mixed_up :
    ¬ ∀ (d : BitVec 16 → BitVec 16 → BitVec 16) (s : State) (input : ℕ → Input) (p : ℕ)
      (c : AdjustDistance.Settings) (noise upp : BitVec 8), Strobes input →
        (input p).tolaEn = true → Steady input p c noise upp → Complete d s input p c := by
  intro h
  have hcomplete := h BitVec.udiv blank (oneShot closePulses) 0 AdjustDistance.mild 4 150
    (strobes_oneShot closePulses) rfl (steady_oneShot closePulses)
  have hkept := kept_of_taken (strobes_oneShot closePulses) rfl (steady_oneShot closePulses)
    hcomplete.taken
  have hmem : 36 ∈ firstFive BitVec.udiv blank (oneShot closePulses) 0 := by
    rw [reports_closePulses]
    decide
  have hown := congrArg BitVec.toNat (hkept.own 36 hmem)
  have hfirst : (path BitVec.udiv blank (oneShot closePulses) 39).peak.midDistance.toNat = 1875 := by
    decide +kernel
  have hlater : (path BitVec.udiv blank (oneShot closePulses) 43).peak.midDistance.toNat = 2512 := by
    decide +kernel
  exact absurd (hlater.symm.trans (hown.trans hfirst)) (by decide)

end SingleScan.EchoPath
