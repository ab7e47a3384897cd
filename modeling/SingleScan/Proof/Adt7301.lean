import SingleScan.Adt7301
import SingleScan.Proof.Ad5328

/-!
# The temperature that is read

The sensor takes its word when the select line falls and shows a bit at each fall of the clock; the
master looks in the middle between two falls. What is left in the register from the word before is
shifted out.
-/

namespace SingleScan

open Serial Bits
open Ad5328Core (toNat_succ)

namespace SpiMasterCoreT

/-- `bit` bits and `clk` clocks into the word `x`. -/
structure Shifting (x : BitVec 16) (bit clk : ℕ) (s : State) (d : Source) : Prop where
  cs : s.cs = .send
  bitCnt : s.bitCnt.toNat = bit
  clkCnt : s.clkCnt.toNat = clk
  sclk : s.sclk = decide (63 ≤ clk ∨ clk = 0 ∧ 1 ≤ bit)
  data : d = ⟨(ofWord x).drop (if clk = 0 then bit - 1 else bit)⟩
  mAxiTdata : ∃ y, s.mAxiTdata = ((ofWord x).take (if 63 ≤ clk then bit + 1 else bit)).foldl shiftIn y

variable {x word : BitVec 16} {bit clk : ℕ} {s : State} {d : Source} {i : Input}

theorem sclk_step (hcs : s.cs = .send) (hclk : s.clkCnt.toNat = clk) :
    (step s i).sclk = decide (62 ≤ clk) := by
  have hhalf : freqCnt / 2 - 1 = 61 := by decide
  simp only [step, hcs, hclk, hhalf, beq_self_eq_true, Bool.true_and, ← decide_not, Nat.not_le]
  rfl

/-- The sensor shows the next bit behind the first clock of a bit. -/
theorem Shifting.data_step (h : Shifting x bit clk s d) (hns : (step s i).cs = .send) :
    d.edge s.wires (step s i).wires word =
      ⟨(ofWord x).drop (if clk = 0 then bit else if clk = 124 then bit + 1 - 1 else bit)⟩ := by
  have hsclk := sclk_step (i := i) h.cs h.clkCnt
  have hlow : s.wires.csN = false := by rw [State.wires, h.cs]; rfl
  have hlow' : (step s i).wires.csN = false := by rw [State.wires, hns]; rfl
  have hquiet (hfalls : ¬ s.wires.Falls (step s i).wires) : d.edge s.wires (step s i).wires word = d :=
    Source.edge_quiet (fun hhigh => Bool.noConfusion (hlow.symm.trans hhigh)) hfalls
  rcases Nat.eq_zero_or_pos clk with rfl | hpos
  · have hdata := h.data
    rw [if_pos rfl] at hdata ⊢
    rcases Nat.eq_zero_or_pos bit with rfl | hbit
    · rw [hquiet (Wires.not_falls_of_low (h.sclk.trans (by simp))), hdata]
    · have hfalls : s.wires.Falls (step s i).wires :=
        ⟨hlow', h.sclk.trans (decide_eq_true (.inr ⟨rfl, hbit⟩)), hsclk⟩
      rw [hdata, Source.edge_falls hlow hfalls, Nat.sub_add_cancel hbit]
  · have hfalls : ¬ s.wires.Falls (step s i).wires := fun hfalls => by
      have hbefore : decide (63 ≤ clk ∨ clk = 0 ∧ 1 ≤ bit) = true := h.sclk.symm.trans hfalls.2.1
      have hafter : decide (62 ≤ clk) = false := hsclk.symm.trans hfalls.2.2
      simp only [decide_eq_true_eq, decide_eq_false_iff_not] at hbefore hafter
      omega
    rw [hquiet hfalls, h.data, if_neg hpos.ne', if_neg hpos.ne', Nat.add_sub_cancel, ite_self]

/-- The master takes a bit in clock 62. -/
theorem Shifting.mAxiTdata_step (h : Shifting x bit clk s d) (hbit : bit < 16) (hmiso : i.miso = d.data) :
    ∃ y, (step s i).mAxiTdata =
      ((ofWord x).take (if 62 ≤ clk then bit + 1 else bit)).foldl shiftIn y := by
  obtain ⟨y, hy⟩ := h.mAxiTdata
  refine ⟨y, ?_⟩
  have hfreq : freqCnt / 2 = 62 := by decide
  simp only [step, h.cs, true_and, h.clkCnt, hfreq]
  by_cases hsample : clk = 62
  · subst hsample
    have hdata : d.data = x.getMsbD bit := by
      rw [h.data, if_neg (by decide), Source.data_drop hbit]
    rw [if_pos rfl, if_pos le_rfl, take_ofWord_succ x hbit, List.foldl_append, hy, if_neg (by decide),
      hmiso, hdata]
    rfl
  · rw [if_neg hsample, hy]
    congr 2
    exact if_congr (by omega) rfl rfl

/-- Bits are left. -/
theorem Shifting.bitCnt_ne (h : Shifting x bit clk s d) (hbit : bit < 16) : s.bitCnt ≠ 16#8 := by
  intro heq
  have hbitCnt := h.bitCnt
  rw [heq] at hbitCnt
  exact hbit.ne' hbitCnt

/-- **One clock of a word.** -/
theorem Shifting.next (h : Shifting x bit clk s d) (hbit : bit < 16) (hclk : clk < 125)
    (hmiso : i.miso = d.data) :
    Shifting x (if clk = 124 then bit + 1 else bit) (if clk = 124 then 0 else clk + 1) (step s i)
      (d.edge s.wires (step s i).wires word) := by
  have hne := h.bitCnt_ne hbit
  have hns : (step s i).cs = .send := by simp [step, State.ns, h.cs, hne]
  have hdata : d.edge s.wires (step s i).wires word = _ := h.data_step hns
  obtain ⟨y, hy⟩ := h.mAxiTdata_step hbit hmiso
  have hsclk := sclk_step (i := i) h.cs h.clkCnt
  have hfreq : freqCnt - 1 = 124 := by decide
  by_cases hlast : clk = 124
  · subst hlast
    have hover : s.clkCnt.toNat = freqCnt - 1 := h.clkCnt
    refine ⟨hns, ?_, ?_, hsclk.trans (by simp), hdata, y, hy⟩
    · simp only [step, h.cs, hover, if_true]
      exact toNat_succ h.bitCnt (by omega)
    · simp [step, h.cs, hover]
  · have hover : s.clkCnt.toNat ≠ freqCnt - 1 := by rwa [h.clkCnt, hfreq]
    rw [if_neg hlast, if_neg hlast]
    refine ⟨hns, ?_, ?_, ?_, ?_, y, ?_⟩
    · simpa [step, h.cs, hover] using h.bitCnt
    · simp only [step, h.cs, hover, if_true, if_false]
      exact toNat_succ h.clkCnt (by omega)
    · rw [hsclk]
      exact decide_eq_decide.2 (by omega)
    · rw [hdata, if_neg (Nat.succ_ne_zero clk), if_neg hlast, ite_self]
    · rw [hy]
      congr 2
      exact if_congr (by omega) rfl rfl

/-- The master is not sending. -/
structure Still (cs : Phase) (bit clk : ℕ) (s : State) : Prop where
  cs : s.cs = cs
  bitCnt : s.bitCnt.toNat = bit
  clkCnt : s.clkCnt.toNat = clk
  sclk : s.sclk = false

theorem Still.next {cs : Phase} (h : Still cs bit clk s) (hcs : cs ≠ .send) :
    Still (s.ns i) 0 clk (step s i) where
  cs := rfl
  bitCnt := by simp [step, h.cs, hcs]
  clkCnt := by simpa [step, h.cs, hcs] using h.clkCnt
  sclk := by simp [step, h.cs, hcs]

/-- Without `enable` it goes idle. -/
theorem Still.rests {cs : Phase} (h : Still cs bit clk s) (hcs : cs ≠ .send) (henable : i.enable = false) :
    Still .idle 0 clk (step s i) := by
  have hns : s.ns i = .idle := by
    cases cs with
    | send => exact absurd rfl hcs
    | _ => simp [State.ns, h.cs, henable]
  exact hns ▸ h.next hcs

/-- The clock stands still, so the sensor does. -/
theorem Still.data_step {cs : Phase} (h : Still cs bit clk s) (hcs : cs = .idle → s.ns i = .idle) :
    d.edge s.wires (step s i).wires word = d := by
  refine Source.edge_quiet (fun hhigh => ?_) (Wires.not_falls_of_low h.sclk)
  have hidle : s.cs = .idle := beq_iff_eq.1 hhigh
  exact beq_iff_eq.2 (hcs (h.cs.symm.trans hidle))

theorem Still.mAxiTdata_step {cs : Phase} (h : Still cs bit clk s) (hcs : cs ≠ .send) :
    (step s i).mAxiTdata = s.mAxiTdata := by
  simp [step, h.cs, hcs]

/-- A word begins. -/
theorem Still.shifting (h : Still .send 0 clk s) (hclk : clk ≤ 1) :
    Shifting x 0 clk s ⟨ofWord x⟩ where
  cs := h.cs
  bitCnt := h.bitCnt
  clkCnt := h.clkCnt
  sclk := h.sclk.trans (decide_eq_false (by omega)).symm
  data := by rw [ite_self, List.drop_zero]
  mAxiTdata := ⟨s.mAxiTdata, by rw [if_neg (by omega), List.take_zero, List.foldl_nil]⟩

/-- The word is complete. -/
theorem Shifting.last (h : Shifting x 16 0 s d) :
    Still .check 16 1 (step s i) ∧ (step s i).mAxiTdata = x ∧ s.mAxiTvalid = true ∧ s.mAxiTdata = x := by
  obtain ⟨y, hy⟩ := h.mAxiTdata
  have hall : s.bitCnt = 16#8 := BitVec.eq_of_toNat_eq h.bitCnt
  have hclk : s.clkCnt = 0#16 := BitVec.eq_of_toNat_eq h.clkCnt
  have hword : s.mAxiTdata = x := by
    rw [hy, if_neg (by decide), take_ofWord_self, foldl_shiftIn_ofWord]
  refine ⟨⟨?_, ?_, ?_, ?_⟩, ?_, ?_, hword⟩
  · simp [step, State.ns, h.cs, hall]
  · simp [step, h.cs, hclk, hall, freqCnt]
  · simp [step, h.cs, hclk, freqCnt]
  · simp [step, h.cs, hclk]
  · simpa [step, h.cs, hclk, freqCnt] using hword
  · simp [State.mAxiTvalid, h.cs, hall]

end SpiMasterCoreT

namespace Adt7301Top

open SpiMasterCoreT

/-- The master and the sensor in clock `n` of a cycle with the word `x`. The divider starts at `first`. -/
inductive Core (first : ℕ) (x : BitVec 16) (n : ℕ) (s : SpiMasterCoreT.State) (d : Source) : Prop
  | before (early : n ≤ 99999902) (still : Still .idle 0 first s)
  | selected (late : 99999903 ≤ n) (early : n ≤ 100000000) (still : Still .check 0 first s)
      (data : d = ⟨ofWord x⟩)
  | shifting {b c : ℕ} (when : first + n = 100000001 + b * 125 + c) (short : c < 125)
      (few : b < 16 ∨ b = 16 ∧ c = 0) (shifting : Shifting x b c s d)
  | taken (when : first + n = 100002002) (still : Still .check 16 1 s) (data : s.mAxiTdata = x)
  | after (late : 100002003 ≤ first + n) (still : Still .idle 0 1 s) (data : s.mAxiTdata = x)

/-- Clock `n` of a cycle. -/
structure Reading (first : ℕ) (x : BitVec 16) (n : ℕ) (s : State) (d : Source) : Prop where
  timeCnt : s.timeCnt.toNat = n
  enable : s.enable = decide (99999902 ≤ n ∧ n ≤ 100000100)
  core : Core first x n s.core d

variable {first n : ℕ} {x word : BitVec 16} {s : State} {d : Source} {i : Input}

theorem toNat_half : (cycleTime >>> 1).toNat = 100000000 := by decide

theorem readTempFlag_eq (htime : s.timeCnt.toNat = n) : s.readTempFlag = decide (n = 100000000) := by
  rw [State.readTempFlag, ← htime, ← toNat_half, Bool.eq_iff_iff, beq_iff_eq, decide_eq_true_eq]
  exact BitVec.toNat_inj.symm

theorem enable_step (htime : s.timeCnt.toNat = n) :
    (step s i).enable = decide (99999900 < n ∧ n < 100000100) := by
  have hlow : (cycleTime >>> 1 - 100).toNat = 99999900 := by decide
  have hhigh : (cycleTime >>> 1 + 100).toNat = 100000100 := by decide
  simp only [step, hlow, hhigh, htime, Bool.decide_and]

section Next

variable (h : Core first x n s.core d) (hfirst : first ≤ 1) (htime : s.timeCnt.toNat = n)
  (henable : s.enable = decide (99999902 ≤ n ∧ n ≤ 100000100)) (hdin : i.adt7301Din = d.data)
  (hword : n = 99999902 → word = x)

include h hfirst htime henable hdin hword

/-- **One clock of the master and the sensor.** -/
theorem Core.next :
    Core first x (n + 1) (step s i).core (d.edge s.core.wires (step s i).core.wires word) := by
  have hflag := readTempFlag_eq htime
  change Core first x (n + 1) (SpiMasterCoreT.step s.core ⟨s.enable, s.readTempFlag, i.adt7301Din⟩)
    (d.edge s.core.wires (SpiMasterCoreT.step s.core ⟨s.enable, s.readTempFlag, i.adt7301Din⟩).wires word)
  rw [henable, hflag]
  cases h with
  | before early still =>
      rcases Nat.lt_or_eq_of_le early with hlt | rfl
      · rw [decide_eq_false (p := 99999902 ≤ n ∧ n ≤ 100000100) (by omega)]
        exact .before hlt (still.rests (by decide) rfl)
      · have hnext := still.next (i := ⟨true, false, i.adt7301Din⟩) (by decide)
        have hns : s.core.ns ⟨true, false, i.adt7301Din⟩ = .check := by
          simp [SpiMasterCoreT.State.ns, still.cs]
        rw [hns] at hnext
        refine .selected le_rfl (by omega) hnext ?_
        rw [hword rfl, Source.edge_select (beq_iff_eq.2 still.cs), List.drop_zero]
        exact beq_eq_false_iff_ne.2 fun hidle => Phase.noConfusion (hnext.cs.symm.trans hidle)
  | selected late early still data =>
      rw [decide_eq_true (p := 99999902 ≤ n ∧ n ≤ 100000100) (by omega)]
      have hnext := still.next (i := ⟨true, decide (n = 100000000), i.adt7301Din⟩) (by decide)
      have hdata : d.edge s.core.wires (SpiMasterCoreT.step s.core
          ⟨true, decide (n = 100000000), i.adt7301Din⟩).wires word = d := still.data_step nofun
      rcases Nat.lt_or_eq_of_le early with hlt | rfl
      · have hns : s.core.ns ⟨true, decide (n = 100000000), i.adt7301Din⟩ = .check := by
          simp [SpiMasterCoreT.State.ns, still.cs, hlt.ne]
        rw [hns] at hnext
        exact .selected (by omega) hlt hnext (hdata.trans data)
      · have hns : s.core.ns ⟨true, decide (100000000 = 100000000), i.adt7301Din⟩ = .send := by
          simp [SpiMasterCoreT.State.ns, still.cs]
        rw [hns] at hnext
        refine .shifting (b := 0) (c := first) (by omega) (by omega) (.inl (by omega)) ?_
        rw [hdata, data]
        exact hnext.shifting hfirst
  | @shifting bit clk hn short few shifting =>
      rcases few with hbit | ⟨rfl, rfl⟩
      · refine .shifting ?_ ?_ ?_ (shifting.next hbit short hdin)
        · split <;> omega
        · split <;> omega
        · split <;> omega
      · obtain ⟨hstill, hdata, -, -⟩ :=
          shifting.last (i := ⟨decide (99999902 ≤ n ∧ n ≤ 100000100), decide (n = 100000000), i.adt7301Din⟩)
        exact .taken (by omega) hstill hdata
  | taken hn still data =>
      rw [decide_eq_false (p := 99999902 ≤ n ∧ n ≤ 100000100) (by omega)]
      exact .after (by omega) (still.rests (by decide) rfl) ((still.mAxiTdata_step (by decide)).trans data)
  | after late still data =>
      rw [decide_eq_false (p := 99999902 ≤ n ∧ n ≤ 100000100) (by omega)]
      exact .after (by omega) (still.rests (by decide) rfl) ((still.mAxiTdata_step (by decide)).trans data)

end Next

/-- The divider is left at 1. -/
theorem Core.wrap {c : SpiMasterCoreT.State} (h : Core first x n c d) (hn : 100002003 ≤ n) (y : BitVec 16) :
    Core 1 y 0 c d := by
  cases h with
  | after _ still => exact .before (Nat.zero_le _) still
  | before => omega
  | selected => omega
  | shifting _ _ few => omega
  | taken => omega

theorem Reading.next (h : Reading first x n s d) (hfirst : first ≤ 1) (hn : n < 200000000)
    (hdin : i.adt7301Din = d.data) (hword : n = 99999902 → word = x) :
    Reading first x (n + 1) (step s i) (d.edge s.core.wires (step s i).core.wires word) where
  timeCnt := by
    have hne : s.timeCnt ≠ cycleTime := fun heq => by
      have htime := h.timeCnt
      rw [heq] at htime
      exact absurd hn (by rw [← htime]; decide)
    simp only [step, if_neg hne]
    exact toNat_succ h.timeCnt (by omega)
  enable := (enable_step h.timeCnt).trans (decide_eq_decide.2 (by omega))
  core := h.core.next hfirst h.timeCnt h.enable hdin hword

theorem Reading.wrap (h : Reading first x 200000000 s d) (hfirst : first ≤ 1)
    (hdin : i.adt7301Din = d.data) (y : BitVec 16) :
    Reading 1 y 0 (step s i) (d.edge s.core.wires (step s i).core.wires word) where
  timeCnt := by
    have hlast : s.timeCnt = cycleTime := BitVec.eq_of_toNat_eq h.timeCnt
    simp [step, hlast]
  enable := (enable_step h.timeCnt).trans (by decide)
  core := (h.core.next hfirst h.timeCnt h.enable hdin (fun hn => absurd hn (by decide))).wrap (by decide) y

theorem Reading.mAxiTvalid (h : Reading first x n s d) (hfirst : first ≤ 1) :
    s.core.mAxiTvalid = decide (first + n = 100002001) := by
  have hstill {cs : Phase} {bit clk : ℕ} (still : Still cs bit clk s.core) (hcs : cs ≠ .send) :
      s.core.mAxiTvalid = false := by
    simp [SpiMasterCoreT.State.mAxiTvalid, still.cs, hcs]
  cases h.core with
  | before _ still => rw [hstill still (by decide), decide_eq_false (by omega)]
  | selected _ _ still => rw [hstill still (by decide), decide_eq_false (by omega)]
  | @shifting bit clk hn short few shifting =>
      rcases few with hbit | ⟨rfl, rfl⟩
      · rw [decide_eq_false (by omega)]
        simp [SpiMasterCoreT.State.mAxiTvalid, shifting.bitCnt_ne hbit]
      · rw [decide_eq_true (by omega)]
        exact (shifting.last (i := ⟨false, false, false⟩)).2.2.1
  | taken hn still => rw [hstill still (by decide), decide_eq_false (by omega)]
  | after late still => rw [hstill still (by decide), decide_eq_false (by omega)]

theorem Reading.mAxiTdata (h : Reading first x n s d) (hfirst : first ≤ 1) (hn : 100002001 ≤ first + n) :
    s.core.mAxiTdata = x := by
  cases h.core with
  | before => omega
  | selected => omega
  | @shifting bit clk _ short few shifting =>
      obtain ⟨rfl, rfl⟩ : bit = 16 ∧ clk = 0 := by omega
      exact (shifting.last (i := ⟨false, false, false⟩)).2.2.2
  | taken _ _ data => exact data
  | after _ _ data => exact data

end Adt7301Top

end SingleScan
