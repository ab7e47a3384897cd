import Mathlib.Data.List.Induction
import SingleScan.Proof.Commands

/-!
# A region download writes each word once, at its index

The write enable and the word of a region RAM are registered, and the address is a wire from the counter
of the words. `Taken` says where the decoder stands behind the first `n` words of the packet, with or
without gaps between them.
-/

namespace SingleScan.CommandModule

open Clocked

variable {j k : Layer} {data : List Word} {closing d w : Word} {s : State} {n : ℕ} {b : Bool}

/-- What the write port of a RAM does at the next edge. -/
def State.write (s : State) (j : Layer) : Option (BitVec 10 × BitVec 18) :=
  if s.regionWren j then some (s.regionWraddr, s.regionWrdata j) else none

/-- The writes to a RAM in a sequence of clocks. -/
def writes (j : Layer) : State → List (Bus Word) → List (BitVec 10 × BitVec 18)
  | _, [] => []
  | s, c :: bus => (s.write j).toList ++ writes j (step s c) bus

/-- The words that cross the bus. -/
def wordsOf (bus : List (Bus Word)) : List Word :=
  bus.filterMap fun c => if c.valid then some c.data else none

/-- A packet `M_WR_REGIONk`. -/
def regionPacket (k : Layer) (data : List Word) (closing : Word) : List Word :=
  (headCode ++ wrRegion k) :: BitVec.ofNat 32 data.length :: (data ++ [closing])

/-- The words of a region at their indices. -/
def indexed (data : List Word) : List (BitVec 10 × BitVec 18) :=
  data.mapIdx fun i w => (BitVec.ofNat 10 i, w.setWidth 18)

theorem regionRam_run (j : Layer) (s : State) (bus : List (Bus Word)) :
    (run s bus).regionRam j =
      (writes j s bus).foldl (fun ram p => Function.update ram p.1 p.2) (s.regionRam j) := by
  induction bus generalizing s with
  | nil => rfl
  | cons c bus ih =>
      have hstep : (step s c).regionRam j =
          (s.write j).toList.foldl (fun ram p => Function.update ram p.1 p.2) (s.regionRam j) := by
        funext a
        cases hwren : s.regionWren j <;>
          simp [step, State.writeRam, State.write, hwren, Function.update_apply]
      rw [writes, List.foldl_append, ← hstep, ← ih]
      rfl

/-! ### One clock -/

theorem write_step_quiet : (step s ⟨false, d⟩).write j = none := by
  simp [State.write, step]

theorem write_step_skip (hns : s.ns ⟨true, w⟩ ≠ .data) : (step s ⟨true, w⟩).write j = none := by
  simp [State.write, step, State.loads, hns]

/-- A data word is written behind the clock that takes it, when the counter has passed it. -/
theorem write_step_load {i : ℕ} (hready : s.protocolFifoOutReady = true) (hcs : s.cs ≠ .idle)
    (hns : s.ns ⟨true, w⟩ = .data) (hcommand : s.recvCommand = wrRegion k)
    (hcnt : s.recvCnt = BitVec.ofNat 16 (i + 1)) :
    (step s ⟨true, w⟩).write j =
      if j = k then some (BitVec.ofNat 10 i, w.setWidth 18) else none := by
  have haddr := CommandLink.regionWraddr_step (w := w) hready hcs hcnt
  have hloads : s.loads ⟨true, w⟩ (wrRegion j) ↔ j = k := by
    simp only [State.loads, hns, hcommand, true_and]
    exact ⟨fun h => (CommandLink.wrRegion_injective h).symm, fun h => by rw [h]⟩
  rw [State.write, haddr]
  by_cases hj : j = k
  · rw [if_pos hj]
    simp [step, hloads.2 hj, hready]
  · simp [step, hloads, hj]

/-! ### Inside a packet -/

/-- The decoder behind the first `n` words of a packet. The flag says that the last clock carried a
word. -/
inductive Taken (k : Layer) (len : ℕ) : ℕ → Bool → State → Prop
  | idle {b : Bool} {s : State} (cs : s.cs = .idle) : Taken k len 0 b s
  | head {b : Bool} {s : State} (cs : s.cs = .headCommand) (command : s.recvCommand = wrRegion k)
      (cnt : s.recvCnt = 0) : Taken k len 1 b s
  | dataLen {b : Bool} {s : State} (cs : s.cs = .dataLen) (command : s.recvCommand = wrRegion k)
      (cnt : s.recvCnt = 1) (full : s.dataLenReg = BitVec.ofNat 16 len) : Taken k len 2 b s
  | data {b : Bool} {s : State} {i : ℕ} (first : 1 ≤ i) (more : i ≤ len) (cs : s.cs = .data)
      (command : s.recvCommand = wrRegion k) (cnt : s.recvCnt = BitVec.ofNat 16 (i + 1))
      (full : s.dataLenReg = BitVec.ofNat 16 len) : Taken k len (i + 2) b s
  | checksum {s : State} (cs : s.cs = .checksum) : Taken k len (len + 2) false s
  | behind {b : Bool} {s : State} (cs : s.cs = .checksum ∨ s.cs = .over ∨ s.cs = .idle) :
      Taken k len (len + 3) b s

section Packet

variable {len : ℕ}

theorem ns_data {i : ℕ} {c : Bus Word} (hshort : len ≤ 1024) (hmore : i ≤ len) (hcs : s.cs = .data)
    (hcnt : s.recvCnt = BitVec.ofNat 16 (i + 1)) (hfull : s.dataLenReg = BitVec.ofNat 16 len) :
    s.ns c = if i = len then .checksum else .data := by
  have hiff : s.recvCnt.toNat = s.dataLenReg.toNat + 1 ↔ i = len := by
    rw [hcnt, hfull, BitVec.toNat_ofNat, BitVec.toNat_ofNat, Nat.mod_eq_of_lt (by omega),
      Nat.mod_eq_of_lt (by omega)]
    omega
  simp only [State.ns, hcs, hiff]

/-- **A gap.** -/
theorem Taken.quiet (hshort : len ≤ 1024) (h : Taken k len n b s) :
    Taken k len n false (step s ⟨false, d⟩) := by
  cases h with
  | idle cs => exact .idle (by simp [step, State.ns, cs])
  | head cs command cnt =>
      exact .head (by simp [step, State.ns, cs]) (by simp [step, cs, command])
        (by simp [step, cs, cnt])
  | dataLen cs command cnt full =>
      exact .dataLen (by simp [step, State.ns, cs]) (by simp [step, cs, command])
        (by simp [step, cs, cnt]) (by simp [step, cs, full])
  | data first more cs command cnt full =>
      have hns := ns_data (c := ⟨false, d⟩) hshort more cs cnt full
      rcases Nat.lt_or_eq_of_le more with hlt | rfl
      · rw [if_neg (Nat.ne_of_lt hlt)] at hns
        exact .data first more hns (by simp [step, cs, command]) (by simp [step, cs, cnt])
          (by simp [step, cs, full])
      · rw [if_pos rfl] at hns
        exact .checksum hns
  | checksum cs => exact .checksum (by simp [step, State.ns, cs])
  | behind cs =>
      refine .behind ?_
      rcases cs with cs | cs | cs <;> simp [step, State.ns, cs]

/-- **A word** of the packet. The closing word may come before the decoder looks for it. -/
theorem Taken.word (hpos : 0 < len) (hshort : len ≤ 1024) (hready : s.protocolFifoOutReady = true)
    (h : Taken k len n b s) (hn : n < len + 3) (hhead : n = 0 → w = headCode ++ wrRegion k)
    (hlength : n = 1 → w = BitVec.ofNat 32 len) :
    Taken k len (n + 1) true (step s ⟨true, w⟩) ∧
      (step s ⟨true, w⟩).write j =
        if 2 ≤ n ∧ n < len + 2 ∧ j = k then some (BitVec.ofNat 10 (n - 2), w.setWidth 18)
        else none := by
  cases h with
  | idle cs =>
      have hw := hhead rfl
      have hhigh : w.high = headCode := by
        rw [hw, Word.high, BitVec.extractLsb'_append_eq_left]
      have hlow : w.low = wrRegion k := by
        rw [hw, Word.low, BitVec.setWidth_append]
        simp
      have hns : s.ns ⟨true, w⟩ = .headCommand := by simp [State.ns, cs, hhigh]
      refine ⟨.head hns (by simp [step, hns, cs, hlow]) (by simp [step, cs]), ?_⟩
      rw [write_step_skip (by simp [hns]), if_neg (by omega)]
  | head cs command cnt =>
      have hlow : w.low = BitVec.ofNat 16 len := by
        rw [hlength rfl, Word.low]
        simp
      have hns : s.ns ⟨true, w⟩ = .dataLen := by simp [State.ns, cs]
      refine ⟨.dataLen hns (by simp [step, cs, command]) (by simp [step, cs, hready, cnt])
        (by simp [step, cs, hns, hlow]), ?_⟩
      rw [write_step_skip (by simp [hns]), if_neg (by omega)]
  | dataLen cs command cnt full =>
      have hns : s.ns ⟨true, w⟩ = .data := by simp [State.ns, cs]
      refine ⟨.data (i := 1) le_rfl hpos hns (by simp [step, cs, command])
        (by simp [step, cs, hready, cnt]) (by simp [step, cs, full]), ?_⟩
      rw [write_step_load (i := 0) hready (by simp [cs]) hns command (by simpa using cnt)]
      by_cases hj : j = k
      · rw [if_pos hj, if_pos ⟨le_rfl, by omega, hj⟩]
      · rw [if_neg hj, if_neg fun h => hj h.2.2]
  | @data _ _ i first more cs command cnt full =>
      have hns := ns_data (c := ⟨true, w⟩) hshort more cs cnt full
      rcases Nat.lt_or_eq_of_le more with hlt | rfl
      · rw [if_neg (Nat.ne_of_lt hlt)] at hns
        refine ⟨.data (i := i + 1) (by omega) hlt hns (by simp [step, cs, command])
          (by simp [step, cs, hready, cnt, BitVec.ofNat_add]) (by simp [step, cs, full]), ?_⟩
        rw [write_step_load hready (by simp [cs]) hns command cnt]
        by_cases hj : j = k
        · rw [if_pos hj, if_pos ⟨by omega, by omega, hj⟩]
          rfl
        · rw [if_neg hj, if_neg fun h => hj h.2.2]
      · rw [if_pos rfl] at hns
        exact ⟨.behind (.inl hns), by rw [write_step_skip (by simp [hns]), if_neg (by omega)]⟩
  | checksum cs =>
      have hns : s.ns ⟨true, w⟩ = .over := by simp [State.ns, cs]
      exact ⟨.behind (.inr (.inl hns)), by rw [write_step_skip (by simp [hns]), if_neg (by omega)]⟩
  | behind => omega

end Packet

theorem indexed_drop {m : ℕ} (hm : m < data.length) :
    (indexed data).drop m =
      (BitVec.ofNat 10 m, (data.get ⟨m, hm⟩).setWidth 18) :: (indexed data).drop (m + 1) := by
  have hlen : m < (indexed data).length := by simpa [indexed] using hm
  rw [List.drop_eq_getElem_cons hlen]
  simp [indexed]

theorem packet_word {rest : List Word} (hn : 2 ≤ n) (hlt : n < data.length + 2)
    (hrest : (regionPacket k data closing).drop n = w :: rest) :
    w = data.get ⟨n - 2, by omega⟩ := by
  obtain ⟨m, rfl⟩ : ∃ m, n = m + 2 := ⟨n - 2, by omega⟩
  have hm : m < data.length := by omega
  simp only [regionPacket, List.drop_succ_cons] at hrest
  rw [List.drop_append_of_le_length hm.le, List.drop_eq_getElem_cons hm, List.cons_append,
    List.cons.injEq] at hrest
  exact hrest.1.symm

theorem packet_length : (regionPacket k data closing).length = data.length + 3 := by
  simp [regionPacket]

theorem indexed_drop_all {m : ℕ} (hm : data.length ≤ m) : (indexed data).drop m = [] :=
  List.drop_of_length_le (by simpa [indexed] using hm)

/-- **The writes** from the first `n` words on, without the one that is on its way. -/
theorem writes_step (hpos : 0 < data.length) (hshort : data.length ≤ 1024)
    {bus : List (Bus Word)} (c : Bus Word) :
    ∀ {n : ℕ} {b : Bool} {s : State}, s.protocolFifoOutReady = true → Taken k data.length n b s →
      wordsOf (c :: bus) = (regionPacket k data closing).drop n → n ≤ data.length + 3 →
      writes j (step s c) bus = if j = k then (indexed data).drop (n - 2) else [] := by
  induction bus generalizing c with
  | nil =>
      intro n b s hready htaken hwords hn
      have hall : data.length ≤ n - 2 := by
        have hcount := congrArg List.length hwords
        rw [List.length_drop, packet_length] at hcount
        have hone : (wordsOf [c]).length ≤ 1 := List.length_filterMap_le _ _
        omega
      rw [writes, indexed_drop_all hall, ite_self]
  | cons c' bus ih =>
      intro n b s hready htaken hwords hn
      have hready' : (step s c).protocolFifoOutReady = true := rfl
      obtain ⟨valid, w⟩ := c
      cases valid with
      | false =>
          have hrest : wordsOf (c' :: bus) = (regionPacket k data closing).drop n := hwords
          rw [writes, write_step_quiet, ih c' hready' (htaken.quiet hshort) hrest hn]
          rfl
      | true =>
          have hcons : (regionPacket k data closing).drop n = w :: wordsOf (c' :: bus) :=
            hwords.symm
          have hlt : n < data.length + 3 := by
            have hcount := congrArg List.length hcons
            rw [List.length_drop, packet_length, List.length_cons] at hcount
            omega
          have hrest : wordsOf (c' :: bus) = (regionPacket k data closing).drop (n + 1) := by
            rw [← List.tail_drop, hcons, List.tail_cons]
          have hhead : n = 0 → w = headCode ++ wrRegion k := by
            rintro rfl
            exact (List.cons.inj hcons).1.symm
          have hlength : n = 1 → w = BitVec.ofNat 32 data.length := by
            rintro rfl
            exact (List.cons.inj hcons).1.symm
          obtain ⟨hnext, hwrite⟩ :=
            htaken.word (j := j) hpos hshort hready hlt hhead hlength
          rw [writes, hwrite, ih c' hready' hnext hrest (by omega)]
          by_cases hj : j = k
          · by_cases hdata : 2 ≤ n ∧ n < data.length + 2
            · rw [if_pos ⟨hdata.1, hdata.2, hj⟩, if_pos hj, if_pos hj,
                indexed_drop (m := n - 2) (by omega), packet_word hdata.1 hdata.2 hcons,
                show n + 1 - 2 = n - 2 + 1 by omega]
              rfl
            · rw [if_neg fun h => hdata ⟨h.1, h.2.1⟩, if_pos hj, if_pos hj]
              rcases Nat.lt_or_ge n 2 with hfew | hlate
              · rw [show n + 1 - 2 = n - 2 by omega]
                rfl
              · rw [indexed_drop_all (by omega), indexed_drop_all (by omega)]
                rfl
          · rw [if_neg fun h => hj h.2.2, if_neg hj, if_neg hj]
            rfl

theorem writes_packet (hwaiting : CommandLink.Waiting s) (hpos : 0 < data.length)
    (hshort : data.length ≤ 1024) {bus : List (Bus Word)}
    (hwords : wordsOf bus = regionPacket k data closing) (j : Layer) :
    writes j s bus = if j = k then indexed data else [] := by
  cases bus with
  | nil => cases hwords
  | cons c bus =>
      have hnone : s.write j = none := by simp [State.write, hwaiting.still j]
      rw [writes, hnone, writes_step (n := 0) (b := false) hpos hshort c hwaiting.ready
        (.idle hwaiting.cs) hwords (by omega)]
      rfl

theorem foldl_update_indexed (ram : BitVec 10 → BitVec 18) (hshort : data.length ≤ 1024)
    (a : BitVec 10) :
    (indexed data).foldl (fun ram p => Function.update ram p.1 p.2) ram a =
      if h : a.toNat < data.length then (data.get ⟨a.toNat, h⟩).setWidth 18 else ram a := by
  induction data using List.reverseRecOn generalizing a with
  | nil => rfl
  | append_singleton data w ih =>
      rw [List.length_append, List.length_singleton] at hshort
      have hlast : indexed (data ++ [w]) =
          indexed data ++ [(BitVec.ofNat 10 data.length, w.setWidth 18)] := by
        simp [indexed, List.mapIdx_append]
      have haddr : a = BitVec.ofNat 10 data.length ↔ a.toNat = data.length := by
        rw [← BitVec.toNat_inj, BitVec.toNat_ofNat, Nat.mod_eq_of_lt (by omega)]
      rw [hlast, List.foldl_append, List.foldl_cons, List.foldl_nil, Function.update_apply,
        ih (by omega)]
      rcases Nat.lt_trichotomy a.toNat data.length with hlt | heq | hgt
      · rw [if_neg (by rw [haddr]; omega), dif_pos hlt, dif_pos (by simp; omega)]
        simp [List.getElem_append_left hlt]
      · rw [if_pos (haddr.2 heq), dif_pos (by simp; omega)]
        simp [heq]
      · rw [if_neg (by rw [haddr]; omega), dif_neg (by omega), dif_neg (by simp; omega)]

theorem indexed_ofFn {m : ℕ} (f : Fin m → Word) :
    indexed (List.ofFn f) = List.ofFn fun i => (BitVec.ofNat 10 i, (f i).setWidth 18) := by
  refine List.ext_getElem (by simp [indexed]) fun i _ _ => ?_
  simp [indexed]

/-- **A region download.** Whatever the gaps between the words of a packet `M_WR_REGIONk` of length 811,
RAM `k` is written at the addresses 0, …, 810 in order, each time with the low 18 bits of the word of
that index, and the other two RAMs are not written. -/
theorem region_download (hwaiting : CommandLink.Waiting s) (k : Layer)
    (data : Fin targetNumber → Word) (closing : Word) {bus : List (Bus Word)}
    (hwords : wordsOf bus = regionPacket k (List.ofFn data) closing) :
    (∀ j, writes j s bus =
        if j = k then List.ofFn fun i => (BitVec.ofNat 10 i, (data i).setWidth 18) else []) ∧
      (∀ i : Fin targetNumber,
        (run s bus).regionRam k (BitVec.ofNat 10 i) = (data i).setWidth 18) ∧
      (∀ a : BitVec 10, targetNumber ≤ a.toNat → (run s bus).regionRam k a = s.regionRam k a) ∧
      ∀ j, j ≠ k → (run s bus).regionRam j = s.regionRam j := by
  have hlength : (List.ofFn data).length = targetNumber := List.length_ofFn
  have hwrites := writes_packet hwaiting (by rw [hlength]; decide) (by rw [hlength]; decide) hwords
  have hown (a : BitVec 10) : (run s bus).regionRam k a =
      if h : a.toNat < targetNumber then (data ⟨a.toNat, h⟩).setWidth 18 else s.regionRam k a := by
    rw [regionRam_run, hwrites, if_pos rfl, foldl_update_indexed _ (by rw [hlength]; decide)]
    by_cases ha : a.toNat < targetNumber
    · rw [dif_pos ha, dif_pos (by rw [hlength]; exact ha), List.get_ofFn]
      rfl
    · rw [dif_neg ha, dif_neg (by rw [hlength]; exact ha)]
  refine ⟨fun j => ?_, fun i => ?_, fun a ha => ?_, fun j hj => ?_⟩
  · rw [hwrites, indexed_ofFn]
  · have hi := i.isLt
    have haddr : (BitVec.ofNat 10 i.val).toNat = i.val := by
      rw [BitVec.toNat_ofNat, Nat.mod_eq_of_lt (Nat.lt_trans hi (by decide))]
    rw [hown, dif_pos (by rw [haddr]; exact hi)]
    simp only [haddr]
  · rw [hown, dif_neg (by omega)]
  · rw [regionRam_run, hwrites, if_neg hj]
    rfl

/-- The words back to back. -/
def gapless (words : List Word) : List (Bus Word) := words.map fun w => ⟨true, w⟩

theorem wordsOf_gapless (words : List Word) : wordsOf (gapless words) = words := by
  simp [wordsOf, gapless, List.filterMap_map]

/-- The indices, with a bit above the 18 that are stored. -/
def ramp (i : Fin targetNumber) : Word := 0x40000 + BitVec.ofNat 32 i

theorem region_download_ramp :
    (run CommandLink.awake (gapless (regionPacket 1 (List.ofFn ramp) 0))).regionRam 1 810 = 810 ∧
      writes 0 CommandLink.awake (gapless (regionPacket 1 (List.ofFn ramp) 0)) = [] := by
  obtain ⟨hwrites, hown, -⟩ :=
    region_download CommandLink.waiting_awake 1 ramp 0 (wordsOf_gapless _)
  exact ⟨(hown ⟨810, by decide⟩).trans (by decide), hwrites 0⟩

end SingleScan.CommandModule
