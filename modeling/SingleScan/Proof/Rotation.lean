import SingleScan.Proof.AlarmPath

/-!
# What a rotation is compared with

While a distance waits to be judged the address counter has already moved on, so the flag that the
strobe `cnt == 36` looks at compares distance `i` with boundary `i + 1`; and the window closes two
clocks behind the last distance, before its strobe. `Judged` carries this through a window, and
`regionFlag_rotation` is the verdict of a whole rotation.
-/

namespace SingleScan.AlarmPath

open Clocked CompareRegion
open DataSelect (ns_of_skip ns_of_enable dataOutValid_of_enabled cycleEnable_eq_true)

/-! ### One clock of the comparison -/

section Registers

variable (s : State) (i : Input) (k : Layer)

theorem step_flag :
    (step s i).compare.flag k = inside (s.rddata k) s.compare.targetPosR0 := rfl

theorem step_targetPosR0 (henabled : s.select.cs = .enable) :
    (step s i).compare.targetPosR0 = (sample s i).getD s.compare.targetPosR0 := by
  change (if s.select.cycleEnable then
    if s.select.dataOutValid i.select then s.select.dataOut i.select else s.compare.targetPosR0
    else 0) = _
  unfold sample
  rw [cycleEnable_eq_true.2 henabled, if_pos rfl]
  split_ifs <;> rfl

theorem step_regionFlag (henabled : s.select.cs = .enable) (hany : i.minTargetSize = 0) :
    (step s i).compare.regionFlag k =
      if s.compare.cs = .read ∧ s.compare.rdCnt = 0 then true
      else if s.compare.cnt = 36 ∧ s.compare.flag k = true then false
      else s.compare.regionFlag k := by
  have hhit : s.compare.hit (s.compareInput i) k = s.compare.flag k := by
    simp [CompareRegion.State.hit, State.compareInput, hany]
  change (if s.select.cycleEnable then
    if s.compare.cs = .read ∧ s.compare.rdCnt = 0 then true
    else if s.compare.cnt = 36 ∧ s.compare.hit (s.compareInput i) k then false
    else s.compare.regionFlag k else s.compare.regionFlag k) = _
  rw [hhit, cycleEnable_eq_true.2 henabled, if_pos rfl]

end Registers

/-! ### The comparison in a window -/

/-- One of the distances is inside the boundary that is stored one index after its own. -/
def HitNext (ram : BitVec 10 → BitVec 18) (distances : List (BitVec 16)) : Prop :=
  ∃ i x, distances[i]? = some x ∧ inside (ram (BitVec.ofNat 10 (i + 1))) x = true

theorem hitNext_nil (ram : BitVec 10 → BitVec 18) : ¬ HitNext ram [] := by
  rintro ⟨i, x, hx, -⟩
  simp at hx

theorem hitNext_concat {ram : BitVec 10 → BitVec 18} {distances : List (BitVec 16)}
    {x : BitVec 16} :
    HitNext ram (distances ++ [x]) ↔
      HitNext ram distances ∨ inside (ram (BitVec.ofNat 10 (distances.length + 1))) x = true := by
  constructor
  · rintro ⟨i, y, hy, hin⟩
    obtain hi | rfl | hi := Nat.lt_trichotomy i distances.length
    · rw [List.getElem?_append_left hi] at hy
      exact .inl ⟨i, y, hy, hin⟩
    · rw [List.getElem?_concat_length, Option.some.injEq] at hy
      exact .inr (hy ▸ hin)
    · rw [List.getElem?_eq_none (by simp; omega)] at hy
      cases hy
  · rintro (⟨i, y, hy, hin⟩ | hin)
    · have hi := (List.getElem?_eq_some_iff.1 hy).1
      exact ⟨i, y, by rw [List.getElem?_append_left hi, hy], hin⟩
    · exact ⟨distances.length, x, List.getElem?_concat_length, hin⟩

/-- The distances the strobe has passed, `g` clocks after the last one. -/
def strobed (distances : List (BitVec 16)) (g : ℕ) : List (BitVec 16) :=
  if g ≤ 37 then distances.dropLast else distances

/-- The registers of the comparison with `distances` taken, the last one `g` clocks ago. -/
structure Judged (ram : CommandModule.RegionRam) (distances : List (BitVec 16)) (g : ℕ)
    (s : State) : Prop where
  last : ∀ x, distances.getLast? = some x → s.compare.targetPosR0 = x
  rddata : distances ≠ [] → 3 ≤ g → ∀ k, s.rddata k = ram k (BitVec.ofNat 10 distances.length)
  flag : distances ≠ [] → 4 ≤ g → ∀ k,
    s.compare.flag k = inside (ram k (BitVec.ofNat 10 distances.length)) s.compare.targetPosR0
  free : (distances = [] → 5 ≤ g) → ∀ k,
    s.compare.regionFlag k = false ↔ HitNext (ram k) (strobed distances g)

theorem sample_of_enabled {s : State} (i : Input) (henabled : s.select.cs = .enable) :
    sample s i = if i.select.dataInValid then some (s.select.dataOut i.select) else none := by
  rw [sample, dataOutValid_of_enabled _ henabled]

theorem cnt_eq_strobe_iff {n g : ℕ} {s : State} (h : Live n g s) :
    s.compare.cnt = 36 ↔ n ≠ 0 ∧ g = 37 := by
  have hcnt := h.cnt
  have hlate := h.late
  rw [← BitVec.toNat_inj, hcnt]
  change (if n = 0 then 41 else min (g - 1) 41) = 36 ↔ _
  split_ifs at hlate ⊢ <;> omega

/-- Long after a distance the next one is awaited. -/
theorem Live.awaits {n g : ℕ} {s : State} (h : Live n g s) (hmore : n < targetNumber) (hg : 41 < g) :
    s.compare.cs = .compare ∧ s.compare.cnt ≠ 36 := by
  constructor
  · rw [h.phase, phaseAt_eq_compare_iff]
    omega
  · rw [Ne, cnt_eq_strobe_iff h]
    omega

/-- Behind the first distance the address counter is not 0 any more. -/
theorem not_clearing {n g : ℕ} {s : State} (h : Live n g s) (hn : n ≠ 0)
    (hmore : g = 1 ∨ n < targetNumber) : ¬ (s.compare.cs = .read ∧ s.compare.rdCnt = 0) := by
  rintro ⟨-, hzero⟩
  have hrd := h.rdCnt (.inl (by omega)) hmore
  rw [hzero] at hrd
  exact hn hrd.symm

variable {ram : CommandModule.RegionRam} {distances : List (BitVec 16)} {g : ℕ} {s : State}
  {i : Input}

/-- A quiet clock moves a boundary one register on, and in the strobe clock the verdict on the last
distance joins the flag. -/
theorem judged_quiet (hlive : Live distances.length g s) (hmore : distances.length < targetNumber)
    (h : Judged ram distances g s) (hquiet : i.select.dataInValid = false)
    (hram : ∀ k, i.ram k (BitVec.ofNat 10 distances.length) =
      ram k (BitVec.ofNat 10 distances.length))
    (hany : i.minTargetSize = 0) : Judged ram distances (g + 1) (step s i) := by
  have hpos : (step s i).compare.targetPosR0 = s.compare.targetPosR0 := by
    rw [step_targetPosR0 _ _ hlive.enabled, sample_of_enabled _ hlive.enabled, hquiet]
    rfl
  have hphase := hlive.phase
  have hlate := hlive.late
  constructor
  · intro x hx
    rw [hpos]
    exact h.last x hx
  · intro hne hg k
    have hlength : distances.length ≠ 0 := by simpa using hne
    rw [step_rddata]
    split_ifs with hread
    · have hrd := hlive.rdCnt (.inl (by omega)) (.inr hmore)
      have haddr : s.compare.rdCnt.setWidth 10 = BitVec.ofNat 10 distances.length := by
        rw [← hrd]
        rfl
      rw [haddr, hram k]
    · rw [hphase, phaseAt_eq_read_iff] at hread
      exact h.rddata hne (by omega) k
  · intro hne hg k
    rw [step_flag, hpos, h.rddata hne (by omega) k]
  · intro hfresh k
    rw [step_regionFlag _ _ _ hlive.enabled hany]
    obtain rfl | ⟨init, x, rfl⟩ := List.eq_nil_or_concat' distances
    · have hnone : ¬ HitNext (ram k) (strobed [] (g + 1)) := by
        simp [strobed, hitNext_nil]
      have hstrobe : ¬ (s.compare.cnt = 36 ∧ s.compare.flag k = true) :=
        fun hcnt => ((cnt_eq_strobe_iff hlive).1 hcnt.1).1 rfl
      rw [if_neg hstrobe]
      split_ifs with hclear
      · simp [hnone]
      · have hg : 5 ≤ g := by
          by_contra hearly
          have hfour : g = 4 := by
            have hfive := hfresh rfl
            omega
          refine hclear ⟨?_, ?_⟩
          · rw [hphase, phaseAt_eq_read_iff]
            exact .inl ⟨rfl, hfour⟩
          · have hrd := hlive.rdCnt (.inr (by omega)) (.inr hmore)
            exact BitVec.eq_of_toNat_eq hrd
        have hfree := h.free (fun _ => hg) k
        simpa [strobed] using hfree
    · have hne : (init ++ [x]).length ≠ 0 := by simp
      rw [if_neg (not_clearing hlive hne (.inr hmore))]
      have hfree := h.free (by simp) k
      by_cases hstrobe : g = 37
      · have hflag := h.flag (by simp) (by omega) k
        rw [h.last x (by simp), List.length_append, List.length_singleton] at hflag
        simp only [(cnt_eq_strobe_iff hlive).2 ⟨hne, hstrobe⟩, true_and]
        have hbefore : strobed (init ++ [x]) g = init := by
          simp [strobed, hstrobe]
        have hafter : strobed (init ++ [x]) (g + 1) = init ++ [x] := by
          simp [strobed, hstrobe]
        rw [hbefore] at hfree
        rw [hafter, hitNext_concat, ← hflag, ← hfree]
        split_ifs with hin <;> simp [hin]
      · have hsame : strobed (init ++ [x]) (g + 1) = strobed (init ++ [x]) g := by
          simp only [strobed]
          split_ifs <;> first | rfl | omega
        rw [if_neg (fun hcnt => hstrobe ((cnt_eq_strobe_iff hlive).1 hcnt.1).2), hsame]
        exact hfree

/-- A distance comes long after the strobe of the one before. -/
theorem judged_sample {x : BitVec 16} (hlive : Live distances.length g s)
    (hmore : distances.length < targetNumber) (h : Judged ram distances g s) (hg : 41 < g)
    (hsample : sample s i = some x) (hany : i.minTargetSize = 0) :
    Judged ram (distances ++ [x]) 1 (step s i) := by
  constructor
  · intro y hy
    rw [step_targetPosR0 _ _ hlive.enabled, hsample]
    simpa using hy
  · simp
  · simp
  · intro _ k
    obtain ⟨hcs, hcnt⟩ := hlive.awaits hmore hg
    rw [step_regionFlag _ _ _ hlive.enabled hany, if_neg (by simp [hcs]),
      if_neg (fun hstrobe => hcnt hstrobe.1),
      h.free (fun _ => by omega) k]
    have hall : strobed distances g = distances := by
      rw [strobed, if_neg (by omega)]
    have hnext : strobed (distances ++ [x]) 1 = distances := by
      simp [strobed]
    rw [hall, hnext]

/-! ### A whole window -/

/-- A distance is inside a boundary; `FFFF` is no boundary. -/
def Inside (boundary distance : BitVec 16) : Prop := boundary ≠ 0xFFFF ∧ distance ≤ boundary

/-- Some distance is inside the boundary at its own index. -/
def Hit (table : BoundaryTable) (samples : Fin targetNumber → BitVec 16) : Prop :=
  ∃ j, Inside (table j) (samples j)

/-- Some distance is inside the boundary one index further on. -/
def ShiftedHit (table : BoundaryTable) (samples : Fin targetNumber → BitVec 16) : Prop :=
  ∃ j, ∃ hj : j.val + 1 < targetNumber, Inside (table ⟨j.val + 1, hj⟩) (samples j)

/-- One `cycle_enable` window, from clock `first` up to clock `stop`, that hands over exactly 811
distances while the three tables are in the RAMs and the targets have no minimum size. -/
structure Rotation (s : State) (input : ℕ → Input) (tables : Layer → BoundaryTable)
    (samples : Fin targetNumber → BitVec 16) (first stop : ℕ) : Prop where
  begins : first < stop
  before : ∀ t, t + 1 = first → (run s input t).select.cycleEnable = false
  during : ∀ t, first ≤ t → t < stop → (run s input t).select.cycleEnable = true
  after : (run s input stop).select.cycleEnable = false
  distances : logged step s input sample first (stop - first) = List.ofFn samples
  stored : ∀ t, first ≤ t → t < stop → ∀ k (j : Fin targetNumber),
    (input t).ram k (BitVec.ofNat 10 j) = (tables k j).setWidth 18
  anySize : ∀ t, first ≤ t → t < stop → (input t).minTargetSize = 0

/-- The window of a rotation, whatever is compared in it. -/
structure Swept (s : State) (input : ℕ → Input) (samples : Fin targetNumber → BitVec 16)
    (first stop : ℕ) : Prop where
  begins : first < stop
  before : ∀ t, t + 1 = first → (run s input t).select.cycleEnable = false
  during : ∀ t, first ≤ t → t < stop → (run s input t).select.cycleEnable = true
  after : (run s input stop).select.cycleEnable = false
  distances : logged step s input sample first (stop - first) = List.ofFn samples

theorem Rotation.swept {s : State} {input : ℕ → Input} {tables : Layer → BoundaryTable}
    {samples : Fin targetNumber → BitVec 16} {first stop : ℕ}
    (hrot : Rotation s input tables samples first stop) : Swept s input samples first stop :=
  ⟨hrot.begins, hrot.before, hrot.during, hrot.after, hrot.distances⟩

/-- The RAMs with the tables, and nothing behind them. -/
def tableRam (tables : Layer → BoundaryTable) : CommandModule.RegionRam :=
  fun k a => if h : a.toNat < targetNumber then (tables k ⟨a.toNat, h⟩).setWidth 18 else 0

theorem tableRam_ofNat (tables : Layer → BoundaryTable) (k : Layer) {n : ℕ}
    (hn : n < targetNumber) :
    tableRam tables k (BitVec.ofNat 10 n) = (tables k ⟨n, hn⟩).setWidth 18 := by
  have haddr : (BitVec.ofNat 10 n).toNat = n :=
    Nat.mod_eq_of_lt (by have : targetNumber = 811 := rfl; omega)
  simp only [tableRam, haddr, dif_pos hn]

theorem inside_setWidth (boundary distance : BitVec 16) :
    inside (boundary.setWidth 18) distance = true ↔ Inside boundary distance := by
  have hwide : (boundary.setWidth 18).toNat = boundary.toNat :=
    BitVec.toNat_setWidth_of_le (by decide)
  simp [inside, Inside, hwide, BitVec.le_def]

theorem hitNext_dropLast_iff (tables : Layer → BoundaryTable) (k : Layer)
    (samples : Fin targetNumber → BitVec 16) :
    HitNext (tableRam tables k) (List.ofFn samples).dropLast ↔ ShiftedHit (tables k) samples := by
  constructor
  · rintro ⟨j, x, hx, hin⟩
    rw [List.getElem?_dropLast, List.length_ofFn] at hx
    split_ifs at hx with hj
    have hj' : j < targetNumber := by omega
    rw [List.getElem?_ofFn, dif_pos hj', Option.some.injEq] at hx
    rw [tableRam_ofNat tables k (show j + 1 < targetNumber by omega), inside_setWidth, ← hx] at hin
    exact ⟨⟨j, hj'⟩, by simpa using (show j + 1 < targetNumber by omega), hin⟩
  · rintro ⟨j, hj, hin⟩
    refine ⟨j, samples j, ?_, ?_⟩
    · rw [List.getElem?_dropLast, List.length_ofFn, if_pos (by omega), List.getElem?_ofFn,
        dif_pos j.isLt]
    · rw [tableRam_ofNat tables k hj, inside_setWidth]
      exact hin

variable {compare : CompareRegion.State} {rddata : Layer → BitVec 18} {input : ℕ → Input}
  {tables : Layer → BoundaryTable} {samples : Fin targetNumber → BitVec 16} {first stop : ℕ}

theorem run_succ (s : State) (t : ℕ) : run s input (t + 1) = step (run s input t) (input t) := rfl

theorem logged_sample_succ (s : State) (input : ℕ → Input) (first m : ℕ) :
    logged step s input sample first (m + 1) =
      logged step s input sample first m ++
        (sample (run s input (first + m)) (input (first + m))).toList :=
  logged_succ _ _ _

theorem logged_sample_of_quiet {s : State} {input : ℕ → Input} {first m : ℕ}
    (henabled : (run s input (first + m)).select.cs = .enable)
    (hquiet : (input (first + m)).select.dataInValid = false) :
    logged step s input sample first (m + 1) = logged step s input sample first m := by
  rw [logged_sample_succ, sample_of_enabled _ henabled, hquiet, if_neg Bool.false_ne_true,
    Option.toList_none, List.append_nil]

theorem logged_sample_of_sample {s : State} {input : ℕ → Input} {first m : ℕ}
    (henabled : (run s input (first + m)).select.cs = .enable)
    (hvalid : (input (first + m)).select.dataInValid = true) :
    logged step s input sample first (m + 1) = logged step s input sample first m ++
      [(run s input (first + m)).select.dataOut (input (first + m)).select] := by
  rw [logged_sample_succ, sample_of_enabled _ henabled, hvalid, if_pos rfl, Option.toList_some]

theorem live_first (hpaced : Paced input)
    (hrot : Swept (.reset compare rddata) input samples first stop) :
    sinceSample input first = 2 ∧ Live 0 2 (run (.reset compare rddata) input first) := by
  have hopen := cycleEnable_eq_true.1 (hrot.during first le_rfl hrot.begins)
  cases first with
  | zero => cases hopen
  | succ t =>
      have hclosed : (run (.reset compare rddata) input t).select.cs ≠ .enable := by
        simpa [← cycleEnable_eq_true] using hrot.before t rfl
      rcases control_run hpaced t with hrest | ⟨n, hlive⟩
      · obtain ⟨hg, hquiet, hlive⟩ := resting_opens hrest (hpaced.apart t) hclosed hopen
        refine ⟨?_, hlive⟩
        rw [sinceSample, hquiet, if_neg (by simp), hg]
      · exact absurd hlive.enabled hclosed

theorem length_logged_le (hrot : Swept (.reset compare rddata) input samples first stop) {m : ℕ}
    (hm : first + m ≤ stop) :
    (logged step (State.reset compare rddata) input sample first m).length ≤ targetNumber := by
  calc
    _ ≤ (logged step (State.reset compare rddata) input sample first (stop - first)).length :=
      (logged_isPrefix sample first (by omega)).length_le
    _ = targetNumber := by rw [hrot.distances, List.length_ofFn]

theorem Swept.falls {s : State} (hrot : Swept s input samples first stop) :
    (run s input (stop + 1)).compare.cycleEnableFall = true := by
  have hbegins := hrot.begins
  obtain ⟨t, rfl⟩ : ∃ t, stop = t + 1 := ⟨stop - 1, by omega⟩
  rw [CompareRegion.State.cycleEnableFall, run_succ, step_cycleEnableR, hrot.after, run_succ,
    step_cycleEnableR, hrot.during t (by omega) (by omega)]
  rfl

/-- The window stays open as long as distances are missing. -/
theorem live_run (hpaced : Paced input)
    (hrot : Swept (.reset compare rddata) input samples first stop) (m : ℕ) (hm : first + m < stop) :
    Live (logged step (State.reset compare rddata) input sample first m).length
      (sinceSample input (first + m)) (run (.reset compare rddata) input (first + m)) := by
  induction m with
  | zero =>
      obtain ⟨hg, hlive⟩ := live_first hpaced hrot
      rw [Nat.add_zero, hg]
      exact hlive
  | succ m ih =>
      have hlive := ih (by omega)
      have hopen := cycleEnable_eq_true.1 (hrot.during (first + m + 1) (by omega) hm)
      have hfits := length_logged_le hrot (m := m + 1) (by omega)
      cases hvalid : (input (first + m)).select.dataInValid with
      | false =>
          have hlog := logged_sample_of_quiet hlive.enabled hvalid
          have hgap : sinceSample input (first + (m + 1)) = sinceSample input (first + m) + 1 :=
            sinceSample_of_quiet hvalid
          rw [hlog, hgap]
          exact live_quiet hlive hvalid hopen
      | true =>
          have hlog := logged_sample_of_sample hlive.enabled hvalid
          have hgap : sinceSample input (first + (m + 1)) = 1 := sinceSample_of_sample hvalid
          rw [hlog, List.length_append, List.length_singleton] at hfits
          rw [hlog, hgap, List.length_append, List.length_singleton]
          exact live_sample hlive hvalid (hpaced.apart _ hvalid) hfits hopen

/-- What holds in clock `first + m` of a window. -/
structure Window (s : State) (input : ℕ → Input) (tables : Layer → BoundaryTable)
    (first m : ℕ) : Prop where
  live : Live (logged step s input sample first m).length (sinceSample input (first + m))
    (run s input (first + m))
  judged : (logged step s input sample first m).length < targetNumber ∨
      sinceSample input (first + m) = 1 →
    Judged (tableRam tables) (logged step s input sample first m) (sinceSample input (first + m))
      (run s input (first + m))

theorem window_zero (hpaced : Paced input)
    (hrot : Rotation (.reset compare rddata) input tables samples first stop) :
    Window (.reset compare rddata) input tables first 0 := by
  obtain ⟨hg, -⟩ := live_first hpaced hrot.swept
  constructor
  · exact live_run hpaced hrot.swept 0 hrot.begins
  · intro _
    rw [Nat.add_zero, hg]
    constructor
    · simp
    · simp
    · simp
    · intro hlate
      exact absurd (hlate rfl) (by decide)

theorem window_succ (hpaced : Paced input)
    (hrot : Rotation (.reset compare rddata) input tables samples first stop) {m : ℕ}
    (hm : first + m + 1 < stop) (h : Window (.reset compare rddata) input tables first m) :
    Window (.reset compare rddata) input tables first (m + 1) := by
  have hlive := h.live
  have hany := hrot.anySize (first + m) (by omega) (by omega)
  have hstored := hrot.stored (first + m) (by omega) (by omega)
  have hfits := length_logged_le hrot.swept (m := m + 1) (by omega)
  refine ⟨live_run hpaced hrot.swept (m + 1) hm, ?_⟩
  cases hvalid : (input (first + m)).select.dataInValid with
  | false =>
      have hlog := logged_sample_of_quiet hlive.enabled hvalid
      have hgap : sinceSample input (first + (m + 1)) = sinceSample input (first + m) + 1 :=
        sinceSample_of_quiet hvalid
      intro hmore
      have hlate := hlive.late
      rw [hlog, hgap] at hmore ⊢
      have hmore' : (logged step (State.reset compare rddata) input sample first m).length <
          targetNumber := by
        split_ifs at hlate <;> omega
      refine judged_quiet hlive hmore' (h.judged (.inl hmore')) hvalid ?_ hany
      intro k
      rw [tableRam_ofNat tables k hmore']
      exact hstored k ⟨_, hmore'⟩
  | true =>
      have hlog := logged_sample_of_sample hlive.enabled hvalid
      have hgap : sinceSample input (first + (m + 1)) = 1 := sinceSample_of_sample hvalid
      have hg := hpaced.apart _ hvalid
      rw [hlog, List.length_append, List.length_singleton] at hfits
      intro _
      have hsample := sample_of_enabled (input (first + m)) hlive.enabled
      rw [hvalid, if_pos rfl] at hsample
      rw [hlog, hgap]
      exact judged_sample hlive hfits (h.judged (.inl hfits)) hg hsample hany

/-- **The run lemma** of a window. -/
theorem window_run (hpaced : Paced input)
    (hrot : Rotation (.reset compare rddata) input tables samples first stop) (m : ℕ)
    (hm : first + m < stop) : Window (.reset compare rddata) input tables first m := by
  induction m with
  | zero => exact window_zero hpaced hrot
  | succ m ih => exact window_succ hpaced hrot (by omega) (ih (by omega))

/-- The window closes two clocks behind its last distance. -/
theorem window_last (hpaced : Paced input)
    (hrot : Swept (.reset compare rddata) input samples first stop) :
    ∃ m, first + m + 1 = stop ∧ sinceSample input (first + m) = 1 ∧
      logged step (State.reset compare rddata) input sample first m = List.ofFn samples := by
  have hbegins := hrot.begins
  obtain ⟨m, hm⟩ : ∃ m, first + m + 1 = stop := ⟨stop - first - 1, by omega⟩
  have hwindow := live_run hpaced hrot m (by omega)
  have hsize : targetNumber = 811 := rfl
  have hend : (run (State.reset compare rddata) input (first + m)).select.angleOffsetLock.toNat +
      targetNumber - 1 ≤
        (run (State.reset compare rddata) input (first + m)).select.offsetCnt.toNat := by
    have hns := ns_of_enable (input (first + m)).select hwindow.enabled
    have hafter := hrot.after
    rw [← hm, run_succ] at hafter
    by_contra hmore
    rw [if_neg hmore] at hns
    exact absurd (cycleEnable_eq_true.2 hns) (by simpa using hafter)
  have hpos : m ≠ 0 := by
    rintro rfl
    have hbound := hwindow.offset
    rw [logged_zero, List.length_nil] at hbound
    omega
  obtain ⟨m', rfl⟩ : ∃ m', m = m' + 1 := ⟨m - 1, by omega⟩
  have hgap : sinceSample input (first + (m' + 1)) = 1 := by
    have hbefore := live_run hpaced hrot m' (by omega)
    have hopen := cycleEnable_eq_true.1 (hrot.during (first + m' + 1) (by omega) (by omega))
    rw [run_succ, step_select_cs, ns_of_enable _ hbefore.enabled] at hopen
    split_ifs at hopen with hless
    rw [← Nat.add_assoc] at hend
    rw [run_succ, step_lock_of_ne_idle _ _ (by simp [hbefore.enabled])] at hend
    cases hvalid : (input (first + m')).select.dataInValid with
    | true => rw [← Nat.add_assoc, sinceSample, hvalid, if_pos rfl]
    | false =>
        have hle := step_offsetCnt_le_of_quiet (run (State.reset compare rddata) input (first + m'))
          _ hvalid
        omega
  refine ⟨m' + 1, hm, hgap, ?_⟩
  have hquiet : (input (first + (m' + 1))).select.dataInValid = false := by
    by_contra hvalid
    have := hpaced.apart _ (by simpa using hvalid)
    omega
  have hall := logged_sample_of_quiet hwindow.enabled hquiet
  rw [← hall, ← hrot.distances]
  congr 1
  omega

/-- **The verdict of a rotation.** When `cycle_enable_fall` comes, a layer is hit exactly if one of
the first 810 distances is inside the boundary one index further on. -/
theorem regionFlag_rotation (hpaced : Paced input)
    (hrot : Rotation (.reset compare rddata) input tables samples first stop) (k : Layer) :
    (run (.reset compare rddata) input (stop + 1)).compare.cycleEnableFall = true ∧
      ((run (.reset compare rddata) input (stop + 1)).compare.regionFlag k = false ↔
        ShiftedHit (tables k) samples) := by
  obtain ⟨m, hm, hgap, hall⟩ := window_last hpaced hrot.swept
  obtain ⟨hlive, hjudged⟩ := window_run hpaced hrot m (by omega)
  have hfree := (hjudged (.inr hgap)).free
  have hany := hrot.anySize (first + m) (by omega) (by omega)
  rw [hall, hgap] at hlive hfree
  have hlength : (List.ofFn samples).length = 811 := List.length_ofFn
  have hclosed : (run (.reset compare rddata) input stop).select.cs ≠ .enable := by
    simpa [← cycleEnable_eq_true] using hrot.after
  constructor
  · exact hrot.swept.falls
  · rw [run_succ, step_regionFlag_of_closed _ _ _ hclosed, ← hm, run_succ,
      step_regionFlag _ _ _ hlive.enabled hany,
      if_neg (not_clearing hlive (by omega) (.inl rfl)),
      if_neg (fun hstrobe => absurd ((cnt_eq_strobe_iff hlive).1 hstrobe.1).2 (by decide)),
      hfree (fun h => by simp [h] at hlength) k]
    have hlast : strobed (List.ofFn samples) 1 = (List.ofFn samples).dropLast := rfl
    rw [hlast]
    exact hitNext_dropLast_iff tables k samples

/-- **The comparison with the regions.** The flag of a layer is right at the end of a rotation
exactly if the comparison with the neighbouring boundaries of the first 810 distances comes to the
same result as the comparison of all distances with their own. -/
theorem regionFlag_right_iff (hpaced : Paced input)
    (hrot : Rotation (.reset compare rddata) input tables samples first stop) (k : Layer) :
    (run (.reset compare rddata) input (stop + 1)).compare.cycleEnableFall = true ∧
      (((run (.reset compare rddata) input (stop + 1)).compare.regionFlag k = false ↔
          Hit (tables k) samples) ↔
        (ShiftedHit (tables k) samples ↔ Hit (tables k) samples)) := by
  obtain ⟨hfall, hflag⟩ := regionFlag_rotation hpaced hrot k
  exact ⟨hfall, by rw [hflag]⟩

/-! ### A steady rotation -/

/-- The zero mark at once and a distance of 1000 mm every 64 clocks. -/
def steadyInput (tables : Layer → BoundaryTable) (t : ℕ) : Input where
  select := {
    zeroFlag := t == 0
    angleOffset := 2
    minDisplayDistance := 50
    dataInValid := 0 < t && t % 64 == 0
    dataIn := 1000 }
  minTargetSize := 0
  alarmOutputThreshold := 1
  hwType := 1
  ram := tableRam tables

theorem steadyInput_valid (tables : Layer → BoundaryTable) (t : ℕ) :
    (steadyInput tables t).select.dataInValid = true ↔ 0 < t ∧ t % 64 = 0 := by
  simp [steadyInput]

theorem sinceSample_steadyInput (tables : Layer → BoundaryTable) (t : ℕ) :
    sinceSample (steadyInput tables) (t + 1) = t % 64 + 1 := by
  induction t with
  | zero => rfl
  | succ t ih =>
      rw [sinceSample, ih]
      simp only [steadyInput_valid]
      split_ifs <;> omega

theorem paced_steadyInput (tables : Layer → BoundaryTable) : Paced (steadyInput tables) where
  apart := by
    intro t hvalid
    obtain ⟨hpos, hmod⟩ := (steadyInput_valid tables t).1 hvalid
    obtain ⟨u, rfl⟩ : ∃ u, t = u + 1 := ⟨t - 1, by omega⟩
    rw [sinceSample_steadyInput]
    omega
  angle := by
    intro t
    change 2 ≤ (2 : BitVec 16).toNat ∧ (2 : BitVec 16).toNat ≤ 240
    decide

/-- Where `data_select` is in clock `t + 1`. -/
def steadyPhase (t : ℕ) : DataSelect.Phase :=
  if t < 65 then .skip else if t < 51969 then .enable else .idle

theorem select_steadyInput (compare : CompareRegion.State) (rddata : Layer → BitVec 18)
    (tables : Layer → BoundaryTable) (t : ℕ) (ht : t ≤ 51969) :
    (run (.reset compare rddata) (steadyInput tables) (t + 1)).select.cs = steadyPhase t ∧
      (run (.reset compare rddata) (steadyInput tables) (t + 1)).select.angleOffsetLock = 2 ∧
      (run (.reset compare rddata) (steadyInput tables) (t + 1)).select.offsetCnt.toNat = t / 64 := by
  induction t with
  | zero => exact ⟨rfl, rfl, rfl⟩
  | succ t ih =>
      obtain ⟨hcs, hlock, hcnt⟩ := ih (by omega)
      have hsize : targetNumber = 811 := rfl
      have hlock' : (run (.reset compare rddata) (steadyInput tables)
          (t + 1)).select.angleOffsetLock.toNat = 2 := by
        rw [hlock]
        rfl
      have hmoving :
          (run (.reset compare rddata) (steadyInput tables) (t + 1)).select.cs ≠ .idle := by
        rw [hcs, steadyPhase]
        split_ifs <;> first | omega | simp
      refine ⟨?_, ?_, ?_⟩
      · rw [run_succ, step_select_cs]
        by_cases hskip : t < 65
        · rw [steadyPhase, if_pos hskip] at hcs
          rw [ns_of_skip _ hcs, hlock', hcnt, steadyPhase]
          split_ifs <;> first | rfl | omega
        · rw [steadyPhase, if_neg hskip, if_pos (by omega)] at hcs
          rw [ns_of_enable _ hcs, hlock', hcnt, steadyPhase]
          split_ifs <;> first | rfl | omega
      · rw [run_succ, step_lock_of_ne_idle _ _ hmoving, hlock]
      · rw [run_succ, step_offsetCnt, hcnt, if_neg (by simp [steadyInput])]
        simp only [steadyInput_valid]
        split_ifs <;> omega

theorem distances_steadyInput (compare : CompareRegion.State) (rddata : Layer → BitVec 18)
    (tables : Layer → BoundaryTable) (m : ℕ) (hm : m ≤ 51904) :
    logged step (.reset compare rddata) (steadyInput tables) sample 66 m =
      List.replicate ((m + 1) / 64) 1000 := by
  induction m with
  | zero => rfl
  | succ m ih =>
      have henabled :
          (run (.reset compare rddata) (steadyInput tables) (66 + m)).select.cs = .enable := by
        rw [show 66 + m = 65 + m + 1 by omega,
          (select_steadyInput compare rddata tables _ (by omega)).1, steadyPhase,
          if_neg (by omega), if_pos (by omega)]
      have hout : (run (.reset compare rddata) (steadyInput tables) (66 + m)).select.dataOut
          (steadyInput tables (66 + m)).select = 1000 := by
        rw [DataSelect.State.dataOut, if_pos henabled]
        rfl
      rw [logged_sample_succ, ih (by omega), sample_of_enabled _ henabled, hout]
      simp only [steadyInput_valid]
      split_ifs with hvalid
      · rw [Option.toList_some, ← List.replicate_succ']
        congr 1
        omega
      · rw [Option.toList_none, List.append_nil]
        congr 1
        omega

theorem rotation_steadyInput (compare : CompareRegion.State) (rddata : Layer → BitVec 18)
    (tables : Layer → BoundaryTable) :
    Rotation (.reset compare rddata) (steadyInput tables) tables (fun _ => 1000) 66 51970 where
  begins := by decide
  before := by
    intro t ht
    obtain rfl : t = 64 + 1 := by omega
    have hcs := (select_steadyInput compare rddata tables 64 (by decide)).1
    simp [DataSelect.State.cycleEnable, hcs, steadyPhase]
  during := by
    intro t hle hlt
    obtain ⟨u, rfl⟩ : ∃ u, t = u + 1 := ⟨t - 1, by omega⟩
    rw [cycleEnable_eq_true, (select_steadyInput compare rddata tables u (by omega)).1, steadyPhase,
      if_neg (by omega), if_pos (by omega)]
  after := by
    have hcs := (select_steadyInput compare rddata tables 51969 le_rfl).1
    simp [DataSelect.State.cycleEnable, hcs, steadyPhase]
  distances := by
    rw [distances_steadyInput compare rddata tables _ le_rfl, List.ofFn_const]
    rfl
  stored := fun _ _ _ k j => tableRam_ofNat tables k j.isLt
  anySize := fun _ _ _ => rfl

/-- Zeros in all registers. -/
def powerUp : CompareRegion.State where
  cycleEnableR := (false, false)
  alarmOutputThresholdR0 := 0
  alarmOutputThresholdR1 := 0
  alarmOutputThresholdCom := 0
  cs := .idle
  rdCnt := 0
  targetPosS0 := 0
  targetPosR0 := 0
  cnt := 0
  minTargetSizeR0 := 0
  minTargetSizeR1 := 0
  minTargetSizeF := 0
  flag := fun _ => false
  changeR0 := 0
  judge := fun _ => false
  sumR := fun _ => 0
  sum := fun _ => 0
  regionFlag := fun _ => false
  alarmCntR := fun _ => 0
  alarmIoR := fun _ => false
  alarmIo := fun _ => false
  rangeDesUm := 0
  quotients := fun _ => 0

theorem regionFlag_right_iff_around :
    Rotation (.reset powerUp fun _ => 0) (steadyInput fun _ _ => 2000) (fun _ _ => 2000)
        (fun _ => 1000) 66 51970 ∧
      (run (.reset powerUp fun _ => 0) (steadyInput fun _ _ => 2000)
        51971).compare.cycleEnableFall = true ∧
      (run (.reset powerUp fun _ => 0) (steadyInput fun _ _ => 2000)
        51971).compare.regionFlag 0 = false := by
  have hrot := rotation_steadyInput powerUp (fun _ => 0) fun _ _ => 2000
  have hinside : Inside 2000 1000 := ⟨by decide, by decide⟩
  have hsize : 1 < targetNumber := by simp [targetNumber]
  have hown : Hit (fun _ => 2000) (fun _ => 1000) := ⟨⟨0, by omega⟩, hinside⟩
  have hnext : ShiftedHit (fun _ => 2000) (fun _ => 1000) := ⟨⟨0, by omega⟩, hsize, hinside⟩
  have hright := regionFlag_right_iff (paced_steadyInput _) hrot 0
  exact ⟨hrot, hright.1, (hright.2.2 (iff_of_true hnext hown)).2 hown⟩

/-- A boundary of 2000 mm in the first direction only. -/
def firstOnly (j : Fin targetNumber) : BitVec 16 := if j.val = 0 then 2000 else 0xFFFF

/-- A target in the first direction is missed. -/
theorem regionFlag_misses_first :
    ¬ ∀ (input : ℕ → Input) (tables : Layer → BoundaryTable)
      (samples : Fin targetNumber → BitVec 16) (first stop : ℕ), Paced input →
        Rotation (.reset powerUp fun _ => 0) input tables samples first stop →
          ∀ k, (run (.reset powerUp fun _ => 0) input (stop + 1)).compare.regionFlag k = false ↔
            Hit (tables k) samples := by
  intro hall
  have hrot := rotation_steadyInput powerUp (fun _ => 0) fun _ => firstOnly
  have hright := hall _ _ _ _ _ (paced_steadyInput _) hrot 0
  have hown : Hit firstOnly (fun _ => 1000) := by
    refine ⟨⟨0, by simp [targetNumber]⟩, ?_⟩
    rw [firstOnly, if_pos rfl]
    exact ⟨by decide, by decide⟩
  have hflag := (regionFlag_rotation (paced_steadyInput _) hrot 0).2
  obtain ⟨j, hj, hne, -⟩ := hflag.1 (hright.2 hown)
  exact hne (if_neg (by simp))

end SingleScan.AlarmPath
