import SingleScan.Proof.Queue
import SingleScan.Frame
import SingleScan.Fpga2NiosProtocol

/-!
# What the parser takes and stores

Whatever the parser stores, the words it takes are those of a fixed number of pops, so its effect on
the queue is that of `popMany`. Over a queue that holds a complete frame these pops are the words of
the frame, and each value is stored where it belongs.
-/

namespace SingleScan.Nios

open Fpga2Nios
open Update2Nios (txHead)

/-! ### Pops -/

/-- `n` calls of `queue_pop`. -/
def popMany (n : ℕ) (s : Nios) : Nios := (fun s => s.queuePop.2)^[n] s

/-- The queue holds `ws`, and `log` has been popped so far. -/
structure Holds (s : Nios) (ws : List Word) (log : List (Word × Bool)) : Prop where
  valid : s.laserDataQueue.Valid
  contents : s.laserDataQueue.contents = ws
  pops : s.pops = log

/-- A word has been popped out of an empty queue. -/
def Dry (s : Nios) : Prop := ∃ x ∈ s.pops, x.2 = true

/-- Two memories that differ outside the queue and the record of its pops. -/
structure SameQueue (s s' : Nios) : Prop where
  queue : s.laserDataQueue = s'.laserDataQueue
  pops : s.pops = s'.pops

section Pops

variable {s s' : Nios} {w : Word} {ws : List Word} {log : List (Word × Bool)} {n : ℕ}

theorem SameQueue.queuePop (h : SameQueue s s') : SameQueue s.queuePop.2 s'.queuePop.2 := by
  refine ⟨?_, ?_⟩ <;> simp only [Nios.queuePop, h.queue, h.pops]

theorem SameQueue.holds (h : SameQueue s s') (hholds : Holds s' ws log) : Holds s ws log :=
  ⟨h.queue ▸ hholds.valid, h.queue ▸ hholds.contents, h.pops ▸ hholds.pops⟩

theorem Holds.queuePop (h : Holds s (w :: ws) log) :
    s.queuePop.1 = w ∧ Holds s.queuePop.2 ws (log ++ [(w, false)]) := by
  obtain ⟨hvalid, hcontents, hpops⟩ := h
  have hne : s.laserDataQueue.contents ≠ [] := by rw [hcontents]; exact List.cons_ne_nil w ws
  have hpop := Queue.contents_pop hvalid hne
  rw [hcontents, List.cons.injEq] at hpop
  have hempty : queueIsEmpty s.laserDataQueue = false := by
    rw [Bool.eq_false_iff, ne_eq, Queue.isEmpty_iff hvalid]
    exact hne
  refine ⟨hpop.1.symm, Queue.valid_pop hvalid, hpop.2.symm, ?_⟩
  simp only [Nios.queuePop, hpops, hempty, ← hpop.1]

theorem popMany_succ (n : ℕ) (s : Nios) : popMany (n + 1) s = (popMany n s).queuePop.2 :=
  Function.iterate_succ_apply' _ n s

theorem Holds.popMany (h : Holds s ws log) (hn : n ≤ ws.length) :
    Holds (popMany n s) (ws.drop n) (log ++ (ws.take n).map fun w => (w, false)) := by
  induction n with
  | zero => simpa [Nios.popMany] using h
  | succ n ih =>
      have hlt : n < ws.length := hn
      have hprev := ih (by omega)
      rw [List.drop_eq_getElem_cons hlt] at hprev
      have hpop := hprev.queuePop.2
      rw [List.append_assoc] at hpop
      rw [popMany_succ, List.take_succ_eq_append_getElem hlt, List.map_append]
      exact hpop

theorem Dry.queuePop (h : Dry s) : Dry s.queuePop.2 := by
  obtain ⟨x, hx, htrue⟩ := h
  exact ⟨x, List.mem_append_left _ hx, htrue⟩

theorem Holds.dry (h : Holds s [] log) : Dry s.queuePop.2 := by
  refine ⟨(s.queuePop.1, true), ?_, rfl⟩
  have hempty : queueIsEmpty s.laserDataQueue = true :=
    (Queue.isEmpty_iff h.valid).mpr h.contents
  simp [Nios.queuePop, hempty]

theorem Holds.popMany_dry (h : Holds s ws log) (hn : ws.length < n) : Dry (Nios.popMany n s) := by
  induction n, hn using Nat.le_induction with
  | base =>
      have hall := h.popMany (le_refl ws.length)
      rw [List.drop_length] at hall
      rw [Nat.succ_eq_add_one, popMany_succ]
      exact hall.dry
  | succ n _ ih =>
      rw [popMany_succ]
      exact ih.queuePop

end Pops

/-! ### The branches as pops -/

section Branches

variable {s : Nios} {ws : List Word} {log : List (Word × Bool)}

theorem distanceStep_iterate_sameQueue (n : ℕ) (s : Nios) :
    SameQueue (distanceStep^[n] s) (popMany n s) := by
  induction n with
  | zero => exact ⟨rfl, rfl⟩
  | succ n ih =>
      rw [Function.iterate_succ_apply', popMany_succ]
      have hpop := ih.queuePop
      exact ⟨hpop.queue, hpop.pops⟩

theorem finishDistance_sameQueue (s : Nios) : SameQueue s.finishDistance s := by
  rw [finishDistance]
  split <;> exact ⟨rfl, rfl⟩

theorem processWarnings_sameQueue (s : Nios) : SameQueue s.processWarnings s := by
  rw [processWarnings]
  split <;> exact ⟨rfl, rfl⟩

theorem sendWarning_sameQueue (s : Nios) : SameQueue s.sendWarning s := by
  simp only [sendWarning]
  split <;> exact ⟨rfl, rfl⟩

theorem parseDistance_pops (s : Nios) :
    s.parseDistance.pops = (popMany (s.fpga2niosData.dataLen.toNat + 1) s).pops ∧
      s.parseDistance.laserDataQueue =
        queueClear (popMany (s.fpga2niosData.dataLen.toNat + 1) s).laserDataQueue := by
  let s₀ := { s with cycleData := { s.cycleData with distanceLen := 0, grayLen := 0 } }
  have hstart : ∀ n, SameQueue (popMany n s₀) (popMany n s) := by
    intro n
    induction n with
    | zero => exact ⟨rfl, rfl⟩
    | succ n ih => rw [popMany_succ, popMany_succ]; exact ih.queuePop
  have hloop := distanceStep_iterate_sameQueue s.fpga2niosData.dataLen.toNat s₀
  have hpop := hloop.queuePop
  have hstart' := hstart (s.fpga2niosData.dataLen.toNat + 1)
  rw [popMany_succ] at hstart'
  have hfinish := finishDistance_sameQueue
    { (distanceStep^[s.fpga2niosData.dataLen.toNat] s₀).queuePop.2 with
      fpga2niosData :=
        { (distanceStep^[s.fpga2niosData.dataLen.toNat] s₀).queuePop.2.fpga2niosData with
          checksum := (distanceStep^[s.fpga2niosData.dataLen.toNat] s₀).queuePop.1 } }
  refine ⟨hfinish.pops.trans (hpop.pops.trans hstart'.pops), ?_⟩
  exact congrArg queueClear (hfinish.queue.trans (hpop.queue.trans hstart'.queue))

theorem parseStatus_pops (s : Nios) :
    s.parseStatus.pops = (popMany 6 s).pops ∧
      s.parseStatus.laserDataQueue = queueClear (popMany 6 s).laserDataQueue := by
  simp only [parseStatus]
  refine ⟨?_, ?_⟩
  · rw [(sendWarning_sameQueue _).pops, (processWarnings_sameQueue _).pops]
    rfl
  · rw [(sendWarning_sameQueue _).queue]
    simp only
    rw [(processWarnings_sameQueue _).queue]
    rfl

end Branches

/-! ### The header -/

/-- Two memories that agree on what the parser stores for the rest of the program. -/
structure SameStore (s s' : Nios) : Prop where
  sysPara : s.sysPara = s'.sysPara
  sysWarn : s.sysWarn = s'.sysWarn
  cycleData : s.cycleData = s'.cycleData
  overrun : s.overrun = s'.overrun

theorem SameStore.trans {s₁ s₂ s₃ : Nios} (h : SameStore s₁ s₂) (h' : SameStore s₂ s₃) :
    SameStore s₁ s₃ :=
  ⟨h.sysPara.trans h'.sysPara, h.sysWarn.trans h'.sysWarn, h.cycleData.trans h'.cycleData,
    h.overrun.trans h'.overrun⟩

theorem queuePop_sameStore (s : Nios) : SameStore s.queuePop.2 s := ⟨rfl, rfl, rfl, rfl⟩

theorem findHead_sameStore (fuel : ℕ) (recvData : Word) (s : Nios) :
    SameStore (s.findHead fuel recvData).2 s := by
  induction fuel generalizing recvData s with
  | zero => exact ⟨rfl, rfl, rfl, rfl⟩
  | succ fuel ih =>
      rw [findHead]
      split
      · exact ⟨rfl, rfl, rfl, rfl⟩
      · simp only
        split
        · exact ⟨rfl, rfl, rfl, rfl⟩
        · exact (ih _ _).trans (queuePop_sameStore s)

theorem parseHeader_sameStore (s : Nios) : SameStore s.parseHeader s := by
  obtain ⟨hpara, hwarn, hdata, hover⟩ :=
    findHead_sameStore (queueCount s.laserDataQueue).toNat 0 s
  exact ⟨hpara, hwarn, hdata, hover⟩

/-- The loop takes the words before the first head, and the head. -/
theorem findHead_holds {pre rest : List Word} {head : Word} (hpre : ∀ w ∈ pre, w.high ≠ frameHead)
    (hhead : head.high = frameHead) {fuel : ℕ} (recvData : Word) {s : Nios}
    {log : List (Word × Bool)} (h : Holds s (pre ++ head :: rest) log) (hfuel : pre.length < fuel) :
    (s.findHead fuel recvData).1 = head ∧
      Holds (s.findHead fuel recvData).2 rest (log ++ (pre ++ [head]).map fun w => (w, false)) := by
  obtain ⟨fuel, rfl⟩ : ∃ fuel', fuel = fuel' + 1 := ⟨fuel - 1, by omega⟩
  have hempty : queueIsEmpty s.laserDataQueue = false := by
    rw [Bool.eq_false_iff, ne_eq, Queue.isEmpty_iff h.valid, h.contents]
    simp
  induction pre generalizing fuel recvData s log with
  | nil =>
      obtain ⟨hword, hrest⟩ := h.queuePop
      simp only [findHead, hempty, hword, hhead]
      exact ⟨rfl, hrest.valid, hrest.contents, hrest.pops⟩
  | cons w pre ih =>
      obtain ⟨hword, hrest⟩ := h.queuePop
      have hhigh : w.high ≠ frameHead := hpre w List.mem_cons_self
      obtain ⟨fuel, rfl⟩ : ∃ fuel', fuel = fuel' + 1 := ⟨fuel - 1, by simp at hfuel; omega⟩
      have hnext : s.findHead (fuel + 1 + 1) recvData = s.queuePop.2.findHead (fuel + 1) w := by
        conv_lhs => rw [findHead]
        simp [hempty, hword, hhigh]
      have hempty' : queueIsEmpty s.queuePop.2.laserDataQueue = false := by
        rw [Bool.eq_false_iff, ne_eq, Queue.isEmpty_iff hrest.valid, hrest.contents]
        simp
      rw [hnext]
      obtain ⟨hfirst, hholds⟩ := ih
        (fun w' hw' => hpre w' (List.mem_cons_of_mem w hw')) w hrest fuel (by simp at hfuel; omega)
        hempty'
      refine ⟨hfirst, ?_⟩
      rw [List.append_assoc] at hholds
      exact hholds

/-- Without a head it takes everything, and the last word is left in `recv_data`. -/
theorem findHead_none {ws : List Word} (hnone : ∀ w ∈ ws, w.high ≠ frameHead) {fuel : ℕ}
    (recvData : Word) {s : Nios} {log : List (Word × Bool)} (h : Holds s ws log)
    (hfuel : ws.length ≤ fuel) : (s.findHead fuel recvData).1 = ws.getLast?.getD recvData := by
  induction ws generalizing fuel recvData s log with
  | nil =>
      have hempty : queueIsEmpty s.laserDataQueue = true :=
        (Queue.isEmpty_iff h.valid).mpr h.contents
      cases fuel <;> simp [findHead, hempty]
  | cons w ws ih =>
      obtain ⟨fuel, rfl⟩ : ∃ fuel', fuel = fuel' + 1 := ⟨fuel - 1, by simp at hfuel; omega⟩
      have hempty : queueIsEmpty s.laserDataQueue = false := by
        rw [Bool.eq_false_iff, ne_eq, Queue.isEmpty_iff h.valid, h.contents]
        exact List.cons_ne_nil w ws
      obtain ⟨hword, hrest⟩ := h.queuePop
      have hhigh : w.high ≠ frameHead := hnone w List.mem_cons_self
      have hnext : s.findHead (fuel + 1) recvData = s.queuePop.2.findHead fuel w := by
        simp [findHead, hempty, hword, hhigh]
      rw [hnext, ih (fun w' hw' => hnone w' (List.mem_cons_of_mem w hw')) w hrest
        (by simpa using hfuel), List.getLast?_cons]
      simp

/-- **The header** of the first frame in the queue. -/
theorem parseHeader_holds {pre rest : List Word} {head len : Word} {s : Nios}
    {log : List (Word × Bool)} (hpre : ∀ w ∈ pre, w.high ≠ frameHead)
    (hhead : head.high = frameHead) (h : Holds s (pre ++ head :: len :: rest) log) :
    s.parseHeader.fpga2niosData.command = head.low ∧
      s.parseHeader.fpga2niosData.dataLen = len ∧
      Holds s.parseHeader rest (log ++ (pre ++ [head, len]).map fun w => (w, false)) := by
  have hfuel : pre.length < (queueCount s.laserDataQueue).toNat := by
    rw [Queue.toNat_count h.valid, h.contents]
    simp
  obtain ⟨hfirst, hholds⟩ := findHead_holds hpre hhead 0 h hfuel
  have hcommand : Holds
      { (s.findHead (queueCount s.laserDataQueue).toNat 0).2 with
        fpga2niosData :=
          { (s.findHead (queueCount s.laserDataQueue).toNat 0).2.fpga2niosData with
            command := (s.findHead (queueCount s.laserDataQueue).toNat 0).1.low } }
      (len :: rest) (log ++ (pre ++ [head]).map fun w => (w, false)) :=
    ⟨hholds.valid, hholds.contents, hholds.pops⟩
  obtain ⟨hlen, hrest⟩ := hcommand.queuePop
  refine ⟨congrArg Word.low hfirst, hlen, hrest.valid, hrest.contents, hrest.pops.trans ?_⟩
  simp

/-! ### The payload of a distance frame -/

/-- What is in the array behind a `memcpy` to its end. -/
theorem map_memcpy (dest : Bytes) (n : ℕ) (src : List Byte) :
    (List.range (n + src.length)).map (memcpy dest n src) = (List.range n).map dest ++ src := by
  apply List.ext_getElem (by simp)
  intro k hk hk'
  rw [List.getElem_map, List.getElem_range, memcpy]
  by_cases hle : n ≤ k
  · rw [if_pos hle, List.getElem_append_right (by simpa using hle)]
    have hlt : k - n < src.length := by simp at hk; omega
    simp [hlt]
  · rw [if_neg hle, List.getElem_append_left (by simp; omega)]
    simp

theorem distanceText_length (w : Word) : (distanceText w).length = 5 := rfl

theorem grayText_length (w : Word) : (grayText w).length = 3 := rfl

section Distance

variable {s : Nios} {ws : List Word} {log : List (Word × Bool)}

theorem distanceStep_sysPara (n : ℕ) (s : Nios) :
    (distanceStep^[n] s).sysPara = s.sysPara := by
  induction n with
  | zero => rfl
  | succ n ih => rw [Function.iterate_succ_apply']; exact ih

theorem distanceStep_lens (hdistance : s.cycleData.distanceLen = 0) (hgray : s.cycleData.grayLen = 0)
    (n : ℕ) : (distanceStep^[n] s).cycleData.distanceLen = BitVec.ofNat 32 (5 * n) ∧
      (distanceStep^[n] s).cycleData.grayLen = BitVec.ofNat 32 (3 * n) := by
  induction n with
  | zero => exact ⟨hdistance, hgray⟩
  | succ n ih =>
      rw [Function.iterate_succ_apply', distanceStep]
      simp only [Nios.queuePop, ih, Nat.mul_succ, BitVec.ofNat_add]
      exact ⟨rfl, rfl⟩

/-- The loop leaves its arrays with the 812th word. -/
theorem distanceStep_overrun (hdistance : s.cycleData.distanceLen = 0)
    (hgray : s.cycleData.grayLen = 0) (hover : s.overrun = false) (n : ℕ) :
    (distanceStep^[n] s).overrun = decide (targetNumber < n) := by
  induction n with
  | zero => simpa using hover
  | succ n ih =>
      obtain ⟨hlen, hlen'⟩ := distanceStep_lens hdistance hgray n
      have hstep : (distanceStep^[n + 1] s).overrun =
          (decide (targetNumber < n) || decide (cycleDataSize < 5 * n % 2 ^ 32 + 5)
            || decide (cycleDataSize < 3 * n % 2 ^ 32 + 3)) := by
        rw [Function.iterate_succ_apply', distanceStep]
        simp only [Nios.queuePop, ih, hlen, hlen', BitVec.toNat_ofNat]
      rw [hstep, targetNumber, cycleDataSize]
      rcases Nat.lt_trichotomy n 811 with hlt | rfl | hgt
      · rw [Nat.mod_eq_of_lt (by omega), Nat.mod_eq_of_lt (by omega),
          decide_eq_false (show ¬ 811 < n by omega),
          decide_eq_false (show ¬ 811 * 5 < 5 * n + 5 by omega),
          decide_eq_false (show ¬ 811 * 5 < 3 * n + 3 by omega),
          decide_eq_false (show ¬ 811 < n + 1 by omega)]
        rfl
      · decide
      · rw [decide_eq_true hgt, decide_eq_true (show 811 < n + 1 by omega)]
        rfl

theorem distanceStep_text (h : Holds s ws log) (hdistance : s.cycleData.distanceLen = 0)
    (hgray : s.cycleData.grayLen = 0) {n : ℕ} (hn : n ≤ ws.length) (hfit : 5 * n < 2 ^ 32) :
    (List.range (5 * n)).map (distanceStep^[n] s).cycleData.distanceData =
        (ws.take n).flatMap distanceText ∧
      (List.range (3 * n)).map (distanceStep^[n] s).cycleData.grayData =
        (ws.take n).flatMap grayText := by
  induction n with
  | zero => simp
  | succ n ih =>
      have hlt : n < ws.length := hn
      obtain ⟨htext, htext'⟩ := ih (by omega) (by omega)
      obtain ⟨hlen, hlen'⟩ := distanceStep_lens hdistance hgray n
      have hholds := (distanceStep_iterate_sameQueue n s).holds (h.popMany (by omega))
      rw [List.drop_eq_getElem_cons hlt] at hholds
      have hword := hholds.queuePop.1
      rw [Function.iterate_succ_apply', distanceStep, List.take_succ_eq_append_getElem hlt,
        List.flatMap_append, List.flatMap_append, ← htext, ← htext']
      simp only [hword]
      have hsame := queuePop_sameStore (distanceStep^[n] s)
      rw [hsame.cycleData, hlen, hlen', BitVec.toNat_ofNat, BitVec.toNat_ofNat,
        Nat.mod_eq_of_lt (by omega), Nat.mod_eq_of_lt (by omega)]
      have hmem := map_memcpy (distanceStep^[n] s).cycleData.distanceData (5 * n)
        (distanceText ws[n])
      have hmem' := map_memcpy (distanceStep^[n] s).cycleData.grayData (3 * n) (grayText ws[n])
      rw [distanceText_length] at hmem
      rw [grayText_length] at hmem'
      simp only [List.flatMap_cons, List.flatMap_nil, List.append_nil]
      exact ⟨hmem, hmem'⟩

end Distance

/-! ### The queue behind a call -/

/-- The queue is inside its bounds and has `depth` cells. -/
structure Sound (s : Nios) (depth : Word) : Prop where
  valid : s.laserDataQueue.Valid
  depth : s.laserDataQueue.depth = depth

section Sound

variable {s : Nios} {depth : Word}

theorem Sound.queuePop (h : Sound s depth) : Sound s.queuePop.2 depth :=
  ⟨Queue.valid_pop h.valid, h.depth⟩

theorem Sound.popMany (h : Sound s depth) (n : ℕ) : Sound (Nios.popMany n s) depth := by
  induction n with
  | zero => exact h
  | succ n ih => rw [popMany_succ]; exact ih.queuePop

theorem Sound.findHead (h : Sound s depth) (fuel : ℕ) (recvData : Word) :
    Sound (s.findHead fuel recvData).2 depth := by
  induction fuel generalizing recvData s with
  | zero => exact h
  | succ fuel ih =>
      rw [Nios.findHead]
      split
      · exact h
      · simp only
        split
        · exact ⟨h.queuePop.valid, h.queuePop.depth⟩
        · exact ih h.queuePop _

/-- The branches of the parser. -/
theorem fpga2niosParse_distance {s : Nios} (h : s.parseHeader.fpga2niosData.command = distanceData) :
    s.fpga2niosParse = s.parseHeader.parseDistance := by
  rw [Nios.fpga2niosParse]
  exact if_pos h

theorem fpga2niosParse_status {s : Nios} (h : s.parseHeader.fpga2niosData.command = upFpgaStatus) :
    s.fpga2niosParse = s.parseHeader.parseStatus := by
  rw [Nios.fpga2niosParse]
  exact (if_neg (by rw [h]; decide)).trans (if_pos h)

theorem Sound.parseHeader (h : Sound s depth) : Sound s.parseHeader depth := by
  have hpop := (h.findHead (queueCount s.laserDataQueue).toNat 0).queuePop
  exact ⟨hpop.valid, hpop.depth⟩

/-- A call of the parser leaves the queue inside its bounds. -/
theorem Sound.fpga2niosParse (h : Sound s depth) : Sound s.fpga2niosParse depth := by
  have hheader := h.parseHeader
  simp only [Nios.fpga2niosParse]
  split
  · have hpops := hheader.popMany (s.parseHeader.fpga2niosData.dataLen.toNat + 1)
    exact ⟨(parseDistance_pops _).2 ▸ Queue.valid_clear hpops.valid,
      (parseDistance_pops _).2 ▸ hpops.depth⟩
  · split
    · have hpops := hheader.popMany 6
      exact ⟨(parseStatus_pops _).2 ▸ Queue.valid_clear hpops.valid,
        (parseStatus_pops _).2 ▸ hpops.depth⟩
    · exact hheader

end Sound

/-! ### Complete frames, damaged frames -/

/-- Where the parser puts a frame. -/
def Stored (f : Frame) (s s' : Nios) : Prop :=
  match f.kind with
  | .distance =>
      s'.cycleData.posFinish = true ∧ s'.cycleData.distanceLen = 4055 ∧
        s'.cycleData.grayLen = 2433 ∧
        (List.range 4055).map s'.cycleData.distanceData = f.payload.flatMap distanceText ∧
        (List.range 2433).map s'.cycleData.grayData = f.payload.flatMap grayText ∧
        s'.sysWarn.regionAlarm =
          (if s.sysPara.word .boardType = npn then ~~~f.alarms else f.alarms).setWidth 32
  | .status =>
      ∃ cycle zero dust temp pulse, f.payload = [cycle, zero, dust, temp, pulse] ∧
        s'.sysPara.word .motorRealSpeed = cycle ∧ s'.sysPara.word .zeroValue = zero &&& 0xffff ∧
        s'.sysPara.word .placeholer1 = dust ∧ s'.sysPara.word .sysTemp = temp &&& 0xffff ∧
        s'.sysPara.updatePosFlag = temp.getLsbD 31 ∧ s'.sysPara.word .zeroPulseWidth = pulse

/-- The call takes the words of the frame, all of them and no others, out of a queue that holds them,
and stores its payload. -/
structure Decodes (f : Frame) (s s' : Nios) : Prop where
  pops : s'.pops = f.words.map fun w => (w, false)
  stored : Stored f s s'

theorem header_high (kind : Kind) : Word.high (txHead ++ kind.command) = frameHead := by
  cases kind <;> decide

theorem header_low (kind : Kind) : Word.low (txHead ++ kind.command) = kind.command := by
  cases kind <;> decide

theorem dataLen_toNat (kind : Kind) : (BitVec.ofNat 32 kind.dataLen).toNat = kind.dataLen := by
  cases kind <;> rfl

/-- The header of a frame that is in the queue, complete or not. -/
theorem parseHeader_frame {kind : Kind} {ws : List Word} {s : Nios}
    (h : Holds s (kind.header ++ ws) []) :
    s.parseHeader.fpga2niosData.command = kind.command ∧
      s.parseHeader.fpga2niosData.dataLen.toNat = kind.dataLen ∧
      Holds s.parseHeader ws (kind.header.map fun w => (w, false)) := by
  obtain ⟨hcommand, hlen, hholds⟩ :=
    parseHeader_holds (List.forall_mem_nil _) (header_high kind) h
  exact ⟨hcommand.trans (header_low kind), by rw [hlen, dataLen_toNat], hholds⟩

theorem parse_pops {kind : Kind} {s : Nios}
    (hcommand : s.parseHeader.fpga2niosData.command = kind.command)
    (hlen : s.parseHeader.fpga2niosData.dataLen.toNat = kind.dataLen) :
    s.fpga2niosParse.pops = (popMany (kind.dataLen + 1) s.parseHeader).pops ∧
      s.fpga2niosParse.laserDataQueue =
        queueClear (popMany (kind.dataLen + 1) s.parseHeader).laserDataQueue := by
  cases kind with
  | distance =>
      rw [fpga2niosParse_distance hcommand, ← hlen]
      exact parseDistance_pops s.parseHeader
  | status =>
      rw [fpga2niosParse_status hcommand]
      exact parseStatus_pops s.parseHeader

/-- A frame that is cut short runs the queue dry. -/
theorem parse_dry {kind : Kind} {ws : List Word} {s : Nios} (h : Holds s (kind.header ++ ws) [])
    (hshort : ws.length ≤ kind.dataLen) : Dry s.fpga2niosParse := by
  obtain ⟨hcommand, hlen, hholds⟩ := parseHeader_frame h
  obtain ⟨x, hx, hdry⟩ := hholds.popMany_dry (Nat.lt_succ_of_le hshort)
  exact ⟨x, (parse_pops hcommand hlen).1 ▸ hx, hdry⟩

theorem closing_distance (alarms : BitVec 3) (w : Word) (hw : w = Kind.distance.closing alarms) :
    w &&& 0xfffffff = 0xeeeeeee ∧ (w >>> 28) &&& 0x07 = alarms.setWidth 32 ∧
      ~~~(w >>> 28) &&& 0x07 = (~~~alarms).setWidth 32 := by
  subst hw
  revert alarms
  decide

/-- The distance branch when the closing word is a good one. -/
theorem parseDistance_good {s s₀ s₁ : Nios}
    (hs₀ : s₀ = { s with cycleData := { s.cycleData with distanceLen := 0, grayLen := 0 } })
    (hs₁ : s₁ = distanceStep^[s.fpga2niosData.dataLen.toNat] s₀)
    (hgood : s₁.queuePop.1 &&& 0xfffffff = 0xeeeeeee) :
    s.parseDistance.cycleData = { s₁.cycleData with posFinish := true } ∧
      s.parseDistance.sysWarn.regionAlarm =
        (if s.sysPara.word .boardType = npn then ~~~(s₁.queuePop.1 >>> 28) &&& 0x07
          else (s₁.queuePop.1 >>> 28) &&& 0x07) := by
  subst hs₀ hs₁
  have hpara := distanceStep_sysPara s.fpga2niosData.dataLen.toNat
    { s with cycleData := { s.cycleData with distanceLen := 0, grayLen := 0 } }
  simp only [parseDistance, finishDistance, hgood, if_true]
  exact ⟨rfl, by rw [(queuePop_sameStore _).sysPara, hpara]⟩

theorem parseDistance_stored {f : Frame} {s s' : Nios} {log : List (Word × Bool)}
    (hkind : f.kind = .distance) (hpara : s'.sysPara = s.sysPara)
    (hlen : s'.fpga2niosData.dataLen.toNat = targetNumber)
    (h : Holds s' (f.payload ++ [f.kind.closing f.alarms]) log) :
    Stored f s s'.parseDistance := by
  have hlength : f.payload.length = targetNumber := by rw [f.complete, hkind]; rfl
  let s₀ := { s' with cycleData := { s'.cycleData with distanceLen := 0, grayLen := 0 } }
  have hstart : Holds s₀ (f.payload ++ [f.kind.closing f.alarms]) log :=
    ⟨h.valid, h.contents, h.pops⟩
  obtain ⟨htext, htext'⟩ := distanceStep_text hstart rfl rfl
    (n := targetNumber) (by simp [hlength]) (by decide)
  obtain ⟨hdistance, hgray⟩ := distanceStep_lens (s := s₀) rfl rfl targetNumber
  rw [List.take_left' hlength] at htext htext'
  have hdone := (distanceStep_iterate_sameQueue targetNumber s₀).holds
    (hstart.popMany (by simp [hlength]))
  rw [List.drop_left' hlength] at hdone
  have hclosing := hdone.queuePop.1
  rw [hkind] at hclosing
  obtain ⟨hgood, halarm, halarm'⟩ := closing_distance f.alarms _ hclosing
  obtain ⟨hdata, hregion⟩ := parseDistance_good (s := s') (show s₀ = _ from rfl) rfl
    (by rw [hlen]; exact hgood)
  rw [hlen, halarm, halarm', hpara] at hregion
  rw [hlen] at hdata
  simp only [Stored, hkind, hdata, hregion]
  refine ⟨trivial, hdistance, hgray, htext, htext', ?_⟩
  split <;> rfl

theorem processWarnings_sysPara (s : Nios) : s.processWarnings.sysPara = s.sysPara := by
  rw [processWarnings]
  split <;> rfl

theorem sendWarning_sysPara (s : Nios) : s.sendWarning.sysPara = s.sysPara := by
  simp only [sendWarning]
  split <;> rfl

theorem parseStatus_sysPara (s : Nios) :
    ∃ s₀, SameQueue s₀ s ∧ s.parseStatus.sysPara = s₀.takeStatus.sysPara := by
  refine ⟨{ s with sysWarn := { s.sysWarn with len := s.sysWarn.len % 5 } }, ⟨rfl, rfl⟩, ?_⟩
  simp only [parseStatus, sendWarning_sysPara, processWarnings_sysPara]
  rfl

theorem parseStatus_stored {f : Frame} {s s' : Nios} {log : List (Word × Bool)}
    (hkind : f.kind = .status) (h : Holds s' (f.payload ++ [f.kind.closing f.alarms]) log) :
    Stored f s s'.parseStatus := by
  have hlength : f.payload.length = 5 := by rw [f.complete, hkind]; rfl
  obtain ⟨cycle, zero, dust, temp, pulse, hpayload⟩ : ∃ cycle zero dust temp pulse,
      f.payload = [cycle, zero, dust, temp, pulse] := by
    rcases hp : f.payload with _ | ⟨cycle, _ | ⟨zero, _ | ⟨dust, _ | ⟨temp, _ | ⟨pulse, _ | _⟩⟩⟩⟩⟩
    all_goals first
      | exact ⟨cycle, zero, dust, temp, pulse, rfl⟩
      | (rw [hp] at hlength; simp at hlength)
  obtain ⟨s₀, hsame, hpara⟩ := parseStatus_sysPara s'
  have hholds := hsame.holds h
  rw [hpayload] at hholds
  obtain ⟨hcycle, h₁⟩ := hholds.queuePop
  obtain ⟨hzero, h₂⟩ := h₁.queuePop
  obtain ⟨hdust, h₃⟩ := h₂.queuePop
  obtain ⟨htemp, h₄⟩ := h₃.queuePop
  obtain ⟨hpulse, -⟩ := h₄.queuePop
  simp only [Stored, hkind]
  refine ⟨cycle, zero, dust, temp, pulse, hpayload, ?_⟩
  rw [hpara, ← hcycle, ← hzero, ← hdust, ← htemp, ← hpulse]
  exact ⟨rfl, rfl, rfl, rfl, rfl, rfl⟩

/-- **A complete frame** in the queue is decoded. -/
theorem parse_frame {f : Frame} {s : Nios} (h : Holds s f.words []) :
    Decodes f s s.fpga2niosParse := by
  rw [Frame.words, List.append_assoc] at h
  obtain ⟨hcommand, hlen, hholds⟩ := parseHeader_frame h
  have hlength : (f.payload ++ [f.kind.closing f.alarms]).length = f.kind.dataLen + 1 := by
    simp [f.complete]
  have hall := (hholds.popMany hlength.ge).pops
  rw [List.take_of_length_le hlength.le] at hall
  refine ⟨?_, ?_⟩
  · rw [(parse_pops hcommand hlen).1, hall, ← List.map_append, Frame.words, List.append_assoc]
  · have hpara := (parseHeader_sameStore s).sysPara
    cases hkind : f.kind with
    | distance =>
        rw [hkind] at hcommand hlen
        rw [fpga2niosParse_distance hcommand]
        exact parseDistance_stored hkind hpara hlen hholds
    | status =>
        rw [hkind] at hcommand
        rw [fpga2niosParse_status hcommand]
        exact parseStatus_stored hkind hholds

theorem parse_frame_contents {f : Frame} {s : Nios} (h : Holds s f.words []) :
    s.fpga2niosParse.laserDataQueue.contents = [] := by
  rw [Frame.words, List.append_assoc] at h
  obtain ⟨hcommand, hlen, hholds⟩ := parseHeader_frame h
  have hall := hholds.popMany (show f.kind.dataLen + 1 ≤ _ by simp [f.complete])
  rw [(parse_pops hcommand hlen).2, Queue.contents_clear hall.valid]

/-! ### The arrays -/

/-- The first frame in the queue claims to be a distance frame of more than 811 words. -/
def oversized : List Word → Bool
  | head :: len :: rest =>
      if head.high = frameHead then head.low == distanceData && targetNumber < len.toNat
      else oversized (len :: rest)
  | _ => false

theorem oversized_cons {w : Word} {ws : List Word} (hw : w.high ≠ frameHead) :
    oversized (w :: ws) = oversized ws := by
  cases ws with
  | nil => rfl
  | cons w' ws => rw [oversized, if_neg hw]

theorem oversized_append {pre ws : List Word} (hpre : ∀ w ∈ pre, w.high ≠ frameHead) :
    oversized (pre ++ ws) = oversized ws := by
  induction pre with
  | nil => rfl
  | cons w pre ih =>
      rw [List.cons_append, oversized_cons (hpre w List.mem_cons_self),
        ih fun w' hw' => hpre w' (List.mem_cons_of_mem w hw')]

/-- The words before the first head, or no head at all. -/
theorem firstHead_cases (ws : List Word) :
    (∃ pre head rest, ws = pre ++ head :: rest ∧ (∀ w ∈ pre, w.high ≠ frameHead) ∧
        head.high = frameHead) ∨ ∀ w ∈ ws, w.high ≠ frameHead := by
  induction ws with
  | nil => right; simp
  | cons w ws ih =>
      by_cases hw : w.high = frameHead
      · exact .inl ⟨[], w, ws, rfl, by simp, hw⟩
      · rcases ih with ⟨pre, head, rest, rfl, hpre, hhead⟩ | hnone
        · exact .inl ⟨w :: pre, head, rest, rfl, by simpa using ⟨hw, hpre⟩, hhead⟩
        · exact .inr (by simpa using ⟨hw, hnone⟩)

/-- What a call does to the arrays: the writes stay inside, and so do the two lengths. -/
structure Inside (s s' : Nios) : Prop where
  overrun : s'.overrun = false
  distanceLen : s.cycleData.distanceLen.toNat ≤ cycleDataSize →
    s'.cycleData.distanceLen.toNat ≤ cycleDataSize
  grayLen : s.cycleData.grayLen.toNat ≤ cycleDataSize →
    s'.cycleData.grayLen.toNat ≤ cycleDataSize

theorem SameStore.inside {s s' : Nios} (h : SameStore s' s) (hover : s.overrun = false) :
    Inside s s' :=
  ⟨h.overrun.trans hover, by rw [h.cycleData]; exact id, by rw [h.cycleData]; exact id⟩

theorem finishDistance_keeps (s : Nios) :
    s.finishDistance.overrun = s.overrun ∧
      s.finishDistance.cycleData.distanceLen = s.cycleData.distanceLen ∧
      s.finishDistance.cycleData.grayLen = s.cycleData.grayLen := by
  rw [finishDistance]
  split <;> exact ⟨rfl, rfl, rfl⟩

theorem parseDistance_inside (s₀ s : Nios) (hover : s.overrun = false) :
    Inside s₀ s.parseDistance ↔ s.fpga2niosData.dataLen.toNat ≤ targetNumber := by
  let s₁ := { s with cycleData := { s.cycleData with distanceLen := 0, grayLen := 0 } }
  have hkeeps := finishDistance_keeps
    { (distanceStep^[s.fpga2niosData.dataLen.toNat] s₁).queuePop.2 with
      fpga2niosData :=
        { (distanceStep^[s.fpga2niosData.dataLen.toNat] s₁).queuePop.2.fpga2niosData with
          checksum := (distanceStep^[s.fpga2niosData.dataLen.toNat] s₁).queuePop.1 } }
  have hstep := distanceStep_overrun (s := s₁) rfl rfl hover s.fpga2niosData.dataLen.toNat
  obtain ⟨hlen, hlen'⟩ := distanceStep_lens (s := s₁) rfl rfl s.fpga2niosData.dataLen.toNat
  have hover' : s.parseDistance.overrun = decide (targetNumber < s.fpga2niosData.dataLen.toNat) :=
    hkeeps.1.trans hstep
  constructor
  · intro hinside
    have hno := hover'.symm.trans hinside.overrun
    simpa using hno
  · intro hle
    have hdistance : s.parseDistance.cycleData.distanceLen =
        BitVec.ofNat 32 (5 * s.fpga2niosData.dataLen.toNat) := hkeeps.2.1.trans hlen
    have hgray : s.parseDistance.cycleData.grayLen =
        BitVec.ofNat 32 (3 * s.fpga2niosData.dataLen.toNat) := hkeeps.2.2.trans hlen'
    rw [targetNumber] at hle
    refine ⟨hover'.trans (decide_eq_false (by rw [targetNumber]; omega)), fun _ => ?_, fun _ => ?_⟩
    · rw [hdistance, BitVec.toNat_ofNat, cycleDataSize]
      exact (Nat.mod_le _ _).trans (by omega)
    · rw [hgray, BitVec.toNat_ofNat, cycleDataSize]
      exact (Nat.mod_le _ _).trans (by omega)

theorem parseStatus_inside {s₀ s : Nios} (h : SameStore s s₀) (hover : s₀.overrun = false) :
    Inside s₀ s.parseStatus := by
  have hkeeps : s.parseStatus.overrun = s.overrun ∧ s.parseStatus.cycleData = s.cycleData := by
    simp only [parseStatus, sendWarning, processWarnings]
    split <;> split <;> exact ⟨rfl, rfl⟩
  obtain ⟨hover', hdata⟩ := hkeeps
  refine ⟨hover'.trans (h.overrun.trans hover), ?_, ?_⟩ <;>
  · rw [hdata, h.cycleData]
    exact id

/-- **The arrays.** Over a queue that ends in a word `0x….eeee`, a call writes inside the arrays
exactly when the first frame is not oversized. -/
theorem parse_inside_iff {ws : List Word} {last : Word} {s : Nios} (h : Holds s (ws ++ [last]) [])
    (hlast : last.low = 0xeeee) (hover : s.overrun = false) :
    Inside s s.fpga2niosParse ↔ oversized (ws ++ [last]) = false := by
  have hstore := parseHeader_sameStore s
  have hfuel : (ws ++ [last]).length ≤ (queueCount s.laserDataQueue).toNat := by
    rw [Queue.toNat_count h.valid, h.contents]
  -- a call for the command 0xeeee stores nothing
  have hother : s.parseHeader.fpga2niosData.command = 0xeeee → Inside s s.fpga2niosParse := by
    intro hcommand
    have hparse : s.fpga2niosParse = s.parseHeader := by
      simp only [Nios.fpga2niosParse, hcommand]
      rw [if_neg (by decide), if_neg (by decide)]
    rw [hparse]
    exact hstore.inside hover
  rcases firstHead_cases (ws ++ [last]) with ⟨pre, head, rest, hsplit, hpre, hhead⟩ | hnone
  · rw [hsplit] at h hfuel
    cases rest with
    | nil =>
        -- the head is the last word
        obtain ⟨-, hlast'⟩ := List.append_inj' hsplit rfl
        obtain rfl : last = head := by simpa using hlast'
        have hfirst := (findHead_holds hpre hhead 0 h
          (Nat.lt_of_lt_of_le (by simp) hfuel)).1
        have hcommand : s.parseHeader.fpga2niosData.command = 0xeeee :=
          (congrArg Word.low hfirst).trans hlast
        rw [hsplit, oversized_append hpre]
        exact iff_of_true (hother hcommand) rfl
    | cons len rest =>
        obtain ⟨hcommand, hlen, _⟩ := parseHeader_holds hpre hhead h
        rw [hsplit, oversized_append hpre, oversized, if_pos hhead]
        by_cases hdistance : head.low = distanceData
        · rw [fpga2niosParse_distance (hcommand.trans hdistance), parseDistance_inside s _ (hstore.overrun.trans hover), hlen, hdistance]
          simp
        · have hfalse : (head.low == distanceData && decide (targetNumber < len.toNat)) = false := by
            simp [hdistance]
          rw [hfalse]
          refine iff_of_true ?_ rfl
          rw [Nios.fpga2niosParse]
          simp only [hcommand, if_neg hdistance]
          split
          · exact parseStatus_inside hstore hover
          · exact hstore.inside hover
  · have hcommand : s.parseHeader.fpga2niosData.command = 0xeeee := by
      rw [← hlast]
      have hfirst := findHead_none hnone 0 h hfuel
      rw [List.getLast?_concat, Option.getD_some] at hfirst
      rw [← hfirst]
      rfl
    have hfalse : oversized (ws ++ [last]) = false := by
      rw [← List.append_nil (ws ++ [last]), oversized_append hnone]
      rfl
    exact iff_of_true (hother hcommand) hfalse

end SingleScan.Nios
