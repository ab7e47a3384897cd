import Mathlib.Data.List.Basic
import SingleScan.Fifo2spiBridge

/-!
# Transactions through the bridge

The bytes of a transaction are followed from the clock in which a word or the read loop puts them into
the forwarding register. A state that is described by its phase alone is carried over quiet clocks and
over words. The read loop takes a round for each byte and does not look at `nios_cs` before it is over.
-/

namespace SingleScan.Fifo2spiBridge

/-! ### What is handed on -/

section Run

def run (s : State) (is : List Input) : State := is.foldl step s

/-- The bytes that `spi_master_core` is handed in the clocks of `is`. -/
def bytes : State → List Input → List (BitVec 8)
  | _, [] => []
  | s, i :: is => s.handed ++ bytes (step s i) is

/-- The bytes that the read FIFO takes in the clocks of `is`. -/
def stored : State → List Input → List (BitVec 8)
  | _, [] => []
  | s, i :: is =>
      (if s.spirdFifoInValid && i.spirdFifoInReady then [s.spirdFifoInData] else []) ++
        stored (step s i) is

/-- The bytes that are put into the forwarding register in the clocks of `is`. -/
def loaded : State → List Input → List (BitVec 8)
  | _, [] => []
  | s, i :: is => (step s i).handed ++ loaded (step s i) is

theorem run_append (s : State) (is js : List Input) : run s (is ++ js) = run (run s is) js :=
  List.foldl_append

theorem loaded_append (s : State) (is js : List Input) :
    loaded s (is ++ js) = loaded s is ++ loaded (run s is) js := by
  induction is generalizing s with
  | nil => rfl
  | cons i is ih =>
      rw [List.cons_append, loaded, loaded, ih, List.append_assoc]
      rfl

/-- Every byte is handed on with the clock behind the one that put it there. -/
theorem bytes_append_handed (s : State) (is : List Input) :
    bytes s is ++ (run s is).handed = s.handed ++ loaded s is := by
  induction is generalizing s with
  | nil => simp [bytes, loaded, run]
  | cons i is ih =>
      have hrun : run s (i :: is) = run (step s i) is := rfl
      rw [bytes, loaded, hrun, List.append_assoc, ih]

end Run

/-! ### Transactions -/

inductive Transaction
  | write (addrH addrL control : Word) (data : List Word)
  | read (addrH addrL control len : Word)

namespace Transaction

def first : Transaction → Word
  | write addrH _ _ _ | read addrH _ _ _ => addrH

/-- The words behind the first one. -/
def rest : Transaction → List Word
  | write _ addrL control data => addrL :: control :: data
  | read _ addrL control len => [addrL, control, len]

def last (t : Transaction) : Word := t.rest.getLastD t.first

/-- Bit 2 of the control word decides, and a length is between 1 and 4095. -/
def Legal : Transaction → Prop
  | write _ _ control _ => control.getLsbD 2 = true
  | read _ _ control len => control.getLsbD 2 = false ∧ 1 ≤ len.toNat ∧ len.toNat ≤ 4095

/-- What the W5500 is to be sent. -/
def sent : Transaction → List (BitVec 8)
  | write addrH addrL control data => (addrH :: addrL :: control :: data).map (BitVec.setWidth 8)
  | read addrH addrL control len =>
      [addrH.setWidth 8, addrL.setWidth 8, control.setWidth 8] ++ List.replicate len.toNat 0x00

end Transaction

/-- A clock without a word. -/
def Quiet (niosCs : Bool) (i : Input) : Prop := i.niosCs = niosCs ∧ i.spiwrFifoOutValid = false

/-- A clock without a word, where the bus holds the word `d`. -/
def Holds (niosCs : Bool) (d : Word) (i : Input) : Prop :=
  Quiet niosCs i ∧ i.spiwrFifoOutData = d

/-- A clock with a word. -/
def Carries (w : Word) (i : Input) : Prop :=
  i.niosCs = false ∧ i.spiwrFifoOutValid = true ∧ i.spiwrFifoOutData = w

/-- The words `ws` cross the bus behind the word `d`, with an idle clock at least in front of each. -/
inductive Words : Word → List Word → List Input → Prop
  | done {d : Word} : Words d [] []
  | word {d w : Word} {ws : List Word} {gap is : List Input} {i : Input} :
      gap ≠ [] → (∀ j ∈ gap, Holds false d j) → Carries w i → Words w ws is →
        Words d (w :: ws) (gap ++ i :: is)

/-- The clocks of a transaction: from the fall of `nios_cs`, the clock of the first word, those up to the
last word, those behind it, and those with `nios_cs` high up to the next fall. -/
structure Passage where
  transaction : Transaction
  lead : List Input
  first : Input
  words : List Input
  low : List Input
  high : List Input

namespace Passage

/-- The clocks with `nios_cs` low. -/
def selected (p : Passage) : List Input := p.lead ++ p.first :: (p.words ++ p.low)

def clocks (p : Passage) : List Input := p.selected ++ p.high

/-- The first word comes two clocks behind the fall at the earliest. `nios_cs` is high for two clocks at
least behind the last word, or behind the last byte of `len`, which the read FIFO has taken. -/
structure OnBus (p : Passage) (s : State) : Prop where
  legal : p.transaction.Legal
  two_lead : 2 ≤ p.lead.length
  lead : ∀ j ∈ p.lead, Quiet false j
  first : Carries p.transaction.first p.first
  words : Words p.transaction.first p.transaction.rest p.words
  low : ∀ j ∈ p.low, Holds false p.transaction.last j
  two_high : 2 ≤ p.high.length
  high : ∀ j ∈ p.high, Holds true p.transaction.last j
  read : ∀ addrH addrL control len, p.transaction = .read addrH addrL control len →
    len.toNat ≤ (stored s p.selected).length

end Passage

/-- One transaction after the other. -/
def Traffic : State → List Passage → Prop
  | _, [] => True
  | s, p :: ps => p.OnBus s ∧ Traffic (run s p.clocks) ps

/-! ### The end of a read -/

/-- Rounds of the read loop: 142 clocks for each byte, and the wait for the read FIFO. -/
inductive Rounds : ℕ → List Input → Prop
  | done : Rounds 0 []
  | round {n : ℕ} {byte stall is : List Input} {i : Input} :
      byte.length = 142 → (∀ j ∈ stall, j.spirdFifoInReady = false) → i.spirdFifoInReady = true →
        Rounds n is → Rounds (n + 1) (byte ++ (stall ++ i :: is))

/-- If the transaction reads, there is a clock with `nios_cs` high behind the rounds of all its bytes. -/
def Passage.Released (p : Passage) : Prop :=
  ∀ addrH addrL control len, p.transaction = .read addrH addrL control len →
    ∃ loop rest, p.low ++ p.high = loop ++ rest ∧ Rounds len.toNat loop ∧ ∃ i ∈ rest, i.niosCs = true

/-! ### Single clocks -/

section Clocks

variable {s : State} {i : Input}

theorem handed_silent (hi : i.spiwrFifoOutValid = false) (hcs : s.cs ≠ .readByte) :
    (step s i).handed = [] := by
  have hvalid : (s.sAxi i).1 = false := by
    unfold State.sAxi
    split
    · rfl
    · exact absurd ‹_› hcs
    · exact hi
  simp [State.handed, step, hvalid]

theorem handed_quiet {niosCs : Bool} (hi : Quiet niosCs i) (hcs : s.cs ≠ .readByte) :
    (step s i).handed = [] := handed_silent hi.2 hcs

/-- A word is forwarded, unless it is a length. -/
theorem handed_word {w : Word} (hi : Carries w i) (hlen : s.cs ≠ .readLen)
    (hbyte : s.cs ≠ .readByte) : (step s i).handed = [w.setWidth 8] := by
  have haxi : s.sAxi i = (true, w.setWidth 8) := by
    unfold State.sAxi
    split
    · exact absurd ‹_› hlen
    · exact absurd ‹_› hbyte
    · rw [hi.2.1, hi.2.2]
  simp [State.handed, step, haxi]

end Clocks

/-- In front of a transaction. -/
structure Rest (s : State) : Prop where
  cs : s.cs = .idle
  handed : s.handed = []

/-- In a phase, with no byte read so far. -/
structure At (phase : Phase) (s : State) : Prop where
  cs : s.cs = phase
  lenCnt : s.lenCnt = 0

section Phases

variable {s : State} {i : Input} {d w : Word} {is gap : List Input}

theorem Rest.high (h : Rest s) (hi : Quiet true i) : Rest (step s i) :=
  ⟨by simp [step, State.ns, h.cs, hi.1], handed_quiet hi (by simp [h.cs])⟩

theorem At.high (h : At .write s) (hi : Quiet true i) : Rest (step s i) :=
  ⟨by simp [step, State.ns, h.cs, hi.1], handed_quiet hi (by simp [h.cs])⟩

theorem Rest.pause (h : Rest s) (his : ∀ i ∈ is, Quiet true i) :
    Rest (run s is) ∧ loaded s is = [] := by
  induction is generalizing s with
  | nil => exact ⟨h, rfl⟩
  | cons i is ih =>
      have hnext := h.high (his i List.mem_cons_self)
      obtain ⟨hrun, hloaded⟩ := ih hnext fun j hj => his j (List.mem_cons_of_mem i hj)
      exact ⟨hrun, by rw [loaded, hnext.handed, hloaded, List.append_nil]⟩

/-- The phases in which the bridge waits for a word. -/
def Waits (phase : Phase) : Prop :=
  phase = .start ∨ phase = .addrH ∨ phase = .addrL ∨ phase = .readLen ∨ phase = .write

theorem Waits.ne_readByte {phase : Phase} (h : Waits phase) : phase ≠ .readByte := by
  rcases h with rfl | rfl | rfl | rfl | rfl <;> decide

theorem At.quiet {phase : Phase} (h : At phase s) (hwaits : Waits phase) (hi : Quiet false i) :
    At phase (step s i) := by
  obtain ⟨hcs, hlen⟩ := h
  rcases hwaits with rfl | rfl | rfl | rfl | rfl <;>
    exact ⟨by simp [step, State.ns, hcs, hi.1, hi.2], by simp [step, hcs, hlen]⟩

theorem At.waiting {phase : Phase} (h : At phase s) (hwaits : Waits phase)
    (hgap : ∀ i ∈ gap, Quiet false i) : At phase (run s gap) ∧ loaded s gap = [] := by
  induction gap generalizing s with
  | nil => exact ⟨h, rfl⟩
  | cons i gap ih =>
      have hi := hgap i List.mem_cons_self
      obtain ⟨hrun, hloaded⟩ := ih (h.quiet hwaits hi) fun j hj => hgap j (List.mem_cons_of_mem i hj)
      refine ⟨hrun, ?_⟩
      rw [loaded, handed_quiet hi (by rw [h.cs]; exact hwaits.ne_readByte), hloaded,
        List.append_nil]

/-- The clocks from the falling edge of `nios_cs` to the first word. -/
theorem Rest.lead (h : Rest s) (his : ∀ i ∈ is, Quiet false i) (htwo : 2 ≤ is.length) :
    At .start (run s is) ∧ loaded s is = [] := by
  match is, htwo with
  | i :: is, _ =>
      have hi := his i List.mem_cons_self
      have hstart : At .start (step s i) :=
        ⟨by simp [step, State.ns, h.cs, hi.1], by simp [step, h.cs]⟩
      obtain ⟨hrun, hloaded⟩ := hstart.waiting (.inl rfl) fun j hj => his j (List.mem_cons_of_mem i hj)
      refine ⟨hrun, ?_⟩
      rw [loaded, handed_quiet hi (by simp [h.cs]), hloaded, List.append_nil]

/-- The phase behind a header word. -/
def afterWord : Phase → Phase
  | .start => .addrH
  | .addrH => .addrL
  | .addrL => .control
  | phase => phase

theorem At.word {phase : Phase} (h : At phase s)
    (hphase : phase = .start ∨ phase = .addrH ∨ phase = .addrL ∨ phase = .write)
    (hi : Carries w i) :
    At (afterWord phase) (step s i) ∧ (step s i).handed = [w.setWidth 8] := by
  obtain ⟨hcs, hlen⟩ := h
  rcases hphase with rfl | rfl | rfl | rfl <;>
    exact ⟨⟨by simp [step, State.ns, hcs, hi.1, hi.2.1, afterWord], by simp [step, hcs, hlen]⟩,
      handed_word hi (by simp [hcs]) (by simp [hcs])⟩

/-- A header word with the idle clocks in front of it. -/
theorem At.header {phase : Phase} (h : At phase s)
    (hphase : phase = .addrH ∨ phase = .addrL)
    (hgap : ∀ j ∈ gap, Holds false d j) (hi : Carries w i) :
    At (afterWord phase) (run s (gap ++ [i])) ∧ loaded s (gap ++ [i]) = [w.setWidth 8] := by
  have hwaits : Waits phase := hphase.elim (fun hp => .inr (.inl hp)) fun hp => .inr (.inr (.inl hp))
  obtain ⟨hrun, hloaded⟩ := h.waiting hwaits fun j hj => (hgap j hj).1
  obtain ⟨hnext, hhanded⟩ := hrun.word (.inr (hphase.elim .inl fun hp => .inr (.inl hp))) hi
  refine ⟨by rw [run_append]; exact hnext, ?_⟩
  rw [loaded_append, hloaded, List.nil_append, loaded, hhanded]
  rfl

/-- `CONTROL` looks at the bus one clock behind the control word. -/
theorem At.control (h : At .control s) {niosCs : Bool} (hi : Holds niosCs d i) :
    At (if d.getLsbD 2 then .write else .readLen) (step s i) ∧ (step s i).handed = [] := by
  obtain ⟨hcs, hlen⟩ := h
  refine ⟨⟨?_, by simp [step, hcs, hlen]⟩, handed_quiet hi.1 (by simp [hcs])⟩
  have hns : (step s i).cs = s.ns i := rfl
  rw [hns, State.ns, hcs, hi.2]

end Phases

/-! ### Writing -/

/-- The bridge takes data, behind the word `d`. -/
def Writing (d : Word) (s : State) : Prop := At .write s ∨ At .control s ∧ d.getLsbD 2 = true

section Write

variable {s : State} {i : Input} {d w : Word} {is gap : List Input}

theorem Writing.holds (h : Writing d s) (hi : Holds false d i) :
    At .write (step s i) ∧ (step s i).handed = [] := by
  rcases h with hwrite | ⟨hcontrol, hbit⟩
  · exact ⟨hwrite.quiet (.inr (.inr (.inr (.inr rfl)))) hi.1,
      handed_quiet hi.1 (by simp [hwrite.cs])⟩
  · have hnext := hcontrol.control hi
    rwa [if_pos hbit] at hnext

theorem Writing.waiting (h : Writing d s) (hgap : ∀ j ∈ gap, Holds false d j) :
    Writing d (run s gap) ∧ loaded s gap = [] ∧ (gap ≠ [] → At .write (run s gap)) := by
  cases gap with
  | nil => exact ⟨h, rfl, fun hne => absurd rfl hne⟩
  | cons i gap =>
      obtain ⟨hwrite, hhanded⟩ := h.holds (hgap i List.mem_cons_self)
      obtain ⟨hrun, hloaded⟩ := hwrite.waiting (.inr (.inr (.inr (.inr rfl))))
        fun j hj => (hgap j (List.mem_cons_of_mem i hj)).1
      exact ⟨.inl hrun, by rw [loaded, hhanded, hloaded, List.append_nil], fun _ => hrun⟩

theorem Words.write {ws : List Word} (hwords : Words d ws is) :
    ∀ {s : State}, Writing d s →
      Writing (ws.getLastD d) (run s is) ∧ loaded s is = ws.map (BitVec.setWidth 8) := by
  induction hwords with
  | done => exact fun h => ⟨h, rfl⟩
  | @word d w ws gap is i hne hgap hi _ ih =>
      intro s h
      obtain ⟨-, hloaded, hwrite⟩ := h.waiting hgap
      obtain ⟨hnext, hhanded⟩ := (hwrite hne).word (.inr (.inr (.inr rfl))) hi
      obtain ⟨hrun, hrest⟩ := ih (.inl hnext)
      rw [List.getLastD_cons, run_append, loaded_append, hloaded]
      refine ⟨hrun, ?_⟩
      rw [List.nil_append, loaded, hhanded, hrest]
      rfl

/-- Two clocks with `nios_cs` high end the transaction. -/
theorem Writing.tail (h : Writing d s) (his : ∀ i ∈ is, Holds true d i) (htwo : 2 ≤ is.length) :
    Rest (run s is) ∧ loaded s is = [] := by
  match is, htwo with
  | i :: j :: is, _ =>
      have hi := his i List.mem_cons_self
      have hj := his j (List.mem_cons_of_mem i List.mem_cons_self)
      have hrest : ∀ k ∈ is, Quiet true k := fun k hk =>
        (his k (List.mem_cons_of_mem i (List.mem_cons_of_mem j hk))).1
      obtain ⟨hbyte, hend⟩ : (step s i).handed = [] ∧ Rest (step (step s i) j) := by
        rcases h with hwrite | ⟨hcontrol, hbit⟩
        · exact ⟨(hwrite.high hi.1).handed, (hwrite.high hi.1).high hj.1⟩
        · obtain ⟨hwrite, hhanded⟩ := hcontrol.control hi
          rw [if_pos hbit] at hwrite
          exact ⟨hhanded, hwrite.high hj.1⟩
      obtain ⟨hrun, hloaded⟩ := hend.pause hrest
      refine ⟨hrun, ?_⟩
      rw [loaded, loaded, hbyte, hend.handed, hloaded, List.append_nil, List.append_nil]

end Write

/-! ### Reading -/

/-- The read loop is in clock `c` of the byte behind the first `r` of `n`. -/
structure Byte (n r c : ℕ) (s : State) : Prop where
  cs : s.cs = .readByte
  stateCnt : s.stateCnt.toNat = c
  lenCnt : s.lenCnt.toNat = r
  readLen : s.readLen.toNat = n

/-- It counts a byte behind the first `r`. -/
structure Counting (n r : ℕ) (s : State) : Prop where
  cs : s.cs = .readCnt
  lenCnt : s.lenCnt.toNat = r
  readLen : s.readLen.toNat = n

/-- It waits for the read FIFO behind the first `r` bytes. -/
structure Judged (n r : ℕ) (s : State) : Prop where
  cs : s.cs = .readJudge
  lenCnt : s.lenCnt.toNat = r
  readLen : s.readLen.toNat = n

section Read

variable {s : State} {i : Input} {is : List Input} {n m r c : ℕ}

theorem Byte.next (h : Byte n r c s) (hc : c < 140) :
    Byte n r (c + 1) (step s i) ∧ (step s i).handed = if c = 4 then [0x00] else [] := by
  obtain ⟨hcs, hcnt, hlen, hread⟩ := h
  have hlast : s.stateCnt ≠ 140 := fun heq => by
    rw [heq] at hcnt
    exact hc.ne' hcnt
  have hfour : s.stateCnt = 4 ↔ c = 4 := by
    rw [← BitVec.toNat_inj, hcnt]
    rfl
  have hns : s.ns i = .readByte := by rw [State.ns, hcs]; exact if_neg hlast
  have hone : (1 : BitVec 16).toNat = 1 := rfl
  have hsucc : (s.stateCnt + 1).toNat = c + 1 := by
    rw [BitVec.toNat_add, hcnt, hone]
    omega
  refine ⟨⟨hns, ?_, by simpa [step, hcs] using hlen, by simpa [step, hcs] using hread⟩, ?_⟩
  · simpa [step, hcs, hns] using hsucc
  · have haxi : s.sAxi i = if c = 4 then (true, 0x00) else (false, s.sAxiTdata) := by
      rw [State.sAxi, hcs]
      exact if_congr hfour rfl rfl
    have hbyte : (step s i).handed = if (s.sAxi i).1 then [(s.sAxi i).2] else [] := rfl
    rw [hbyte, haxi]
    split <;> rfl

theorem Byte.last (h : Byte n r 140 s) : Counting n r (step s i) ∧ (step s i).handed = [] := by
  obtain ⟨hcs, hcnt, hlen, hread⟩ := h
  have hlast : s.stateCnt = 140 := BitVec.eq_of_toNat_eq hcnt
  exact ⟨⟨by simp [step, State.ns, hcs, hlast], by simpa [step, hcs] using hlen,
    by simpa [step, hcs] using hread⟩, by simp [State.handed, step, State.sAxi, hcs, hlast]⟩

theorem Counting.next (h : Counting n r s) (hr : r < 4095) (hvalid : i.spiwrFifoOutValid = false) :
    Judged n (r + 1) (step s i) ∧ (step s i).handed = [] := by
  obtain ⟨hcs, hlen, hread⟩ := h
  have hone : (1 : BitVec 12).toNat = 1 := rfl
  have hsucc : (s.lenCnt + 1).toNat = r + 1 := by
    rw [BitVec.toNat_add, hlen, hone]
    omega
  exact ⟨⟨by simp [step, State.ns, hcs], by simpa [step, hcs] using hsucc,
    by simpa [step, hcs] using hread⟩, handed_silent hvalid (by simp [hcs])⟩

theorem Byte.run (h : Byte n r c s) (hlen : c + is.length ≤ 140) :
    Byte n r (c + is.length) (run s is) ∧
      loaded s is = if c ≤ 4 ∧ 4 < c + is.length then [0x00] else [] := by
  induction is generalizing s c with
  | nil => exact ⟨h, by rw [loaded, List.length_nil, if_neg (by omega)]⟩
  | cons i is ih =>
      rw [List.length_cons] at hlen ⊢
      obtain ⟨hnext, hhanded⟩ := h.next (i := i) (by omega)
      obtain ⟨hrun, hloaded⟩ := ih hnext (by omega)
      rw [Nat.add_assoc, Nat.add_comm 1] at hrun hloaded
      refine ⟨hrun, ?_⟩
      rw [loaded, hhanded, hloaded]
      by_cases h4 : c = 4
      · rw [if_pos h4, if_neg (by omega), if_pos (by omega), List.append_nil]
      · rw [if_neg h4, List.nil_append]
        exact if_congr (by omega) rfl rfl

/-- The 142 clocks of a byte. -/
theorem Byte.judged (h : Byte n r 0 s) (hr : r < 4095) (hlen : is.length = 142)
    (his : ∀ j ∈ is, j.spiwrFifoOutValid = false) :
    Judged n (r + 1) (Fifo2spiBridge.run s is) ∧ loaded s is = [0x00] := by
  obtain ⟨i, j, htwo⟩ : ∃ i j, is.drop 140 = [i, j] :=
    List.length_eq_two.mp (by rw [List.length_drop, hlen])
  have hsplit : is = is.take 140 ++ [i, j] := by rw [← htwo, List.take_append_drop]
  have htake : (is.take 140).length = 140 := by rw [List.length_take, hlen]; rfl
  have hlast : 0 + (is.take 140).length ≤ 140 := by omega
  obtain ⟨hrun, hloaded⟩ := h.run hlast
  rw [htake] at hrun hloaded
  rw [if_pos (by decide)] at hloaded
  obtain ⟨hcounting, hnone⟩ := hrun.last (i := i)
  obtain ⟨hjudged, hquiet⟩ := hcounting.next hr (his j (by rw [hsplit]; simp))
  rw [hsplit, run_append, loaded_append, hloaded, loaded, loaded, hnone, hquiet]
  exact ⟨hjudged, rfl⟩

theorem Judged.stall (h : Judged n r s) (hstall : ∀ j ∈ is, j.spirdFifoInReady = false)
    (his : ∀ j ∈ is, j.spiwrFifoOutValid = false) : Judged n r (run s is) ∧ loaded s is = [] := by
  induction is generalizing s with
  | nil => exact ⟨h, rfl⟩
  | cons i is ih =>
      obtain ⟨hcs, hlen, hread⟩ := h
      have hready := hstall i List.mem_cons_self
      have hnext : Judged n r (step s i) :=
        ⟨by simp [step, State.ns, hcs, hready], by simpa [step, hcs] using hlen,
          by simpa [step, hcs] using hread⟩
      obtain ⟨hrun, hloaded⟩ := ih hnext (fun j hj => hstall j (List.mem_cons_of_mem i hj))
        fun j hj => his j (List.mem_cons_of_mem i hj)
      refine ⟨hrun, ?_⟩
      rw [loaded, handed_silent (his i List.mem_cons_self) (by simp [hcs]), hloaded]
      rfl

theorem Judged.ready (h : Judged n r s) (hi : i.spirdFifoInReady = true)
    (hvalid : i.spiwrFifoOutValid = false) :
    (if r = n then (step s i).cs = .over else Byte n r 0 (step s i)) ∧ (step s i).handed = [] := by
  obtain ⟨hcs, hlen, hread⟩ := h
  refine ⟨?_, handed_silent hvalid (by simp [hcs])⟩
  have hlast : s.lenCnt = s.readLen ↔ r = n := by rw [← BitVec.toNat_inj, hlen, hread]
  split
  · rename_i hall
    simp [step, State.ns, hcs, hi, hlast.mpr hall]
  · rename_i hmore
    have hns : s.ns i = .readByte := by simp [State.ns, hcs, hi, mt hlast.mp hmore]
    exact ⟨hns, by simp [step, hcs, hns], by simpa [step, hcs] using hlen,
      by simpa [step, hcs] using hread⟩

/-- **The read loop ends** behind its rounds, whatever `nios_cs` does, and has sent a zero in each. -/
theorem Rounds.over (hrounds : Rounds m is) :
    ∀ {s : State} {r : ℕ}, Byte n r 0 s → r + m = n → 0 < m → n ≤ 4095 →
      (∀ j ∈ is, j.spiwrFifoOutValid = false) →
        (run s is).cs = .over ∧ loaded s is = List.replicate m 0x00 := by
  induction hrounds with
  | done => exact fun _ _ hpos => absurd hpos (Nat.lt_irrefl 0)
  | @round m byte stall is i hbyte hstall hready hrest ih =>
      intro s r h hsum _ hmax his
      obtain ⟨hjudged, hzero⟩ := h.judged (by omega) hbyte fun j hj => his j (by simp [hj])
      obtain ⟨hwaits, hnone⟩ := hjudged.stall hstall fun j hj => his j (by simp [hj])
      obtain ⟨hnext, hbyte⟩ := hwaits.ready hready (his i (by simp))
      rw [run_append, run_append, loaded_append, loaded_append, hzero, hnone, List.nil_append, loaded, hbyte,
        List.nil_append]
      change (run (step (run (run s byte) stall) i) is).cs = .over ∧ _
      rcases Nat.eq_zero_or_pos m with rfl | hpos
      · cases hrest
        rw [if_pos (by omega)] at hnext
        exact ⟨hnext, rfl⟩
      · rw [if_neg (by omega)] at hnext
        obtain ⟨hover, hzeros⟩ := ih hnext (by omega) hpos hmax fun j hj => his j (by simp [hj])
        refine ⟨hover, ?_⟩
        rw [hzeros]
        rfl

/-- Without a wait the rounds take 143 clocks each. -/
theorem rounds_of_ready (his : ∀ j ∈ is, j.spirdFifoInReady = true) (hlen : is.length = 143 * n) :
    Rounds n is := by
  induction n generalizing is with
  | zero =>
      obtain rfl := List.eq_nil_of_length_eq_zero hlen
      exact .done
  | succ n ih =>
      obtain ⟨i, rest, hdrop⟩ := List.exists_cons_of_length_pos (l := is.drop 142)
        (by rw [List.length_drop]; omega)
      have hsplit : is = is.take 142 ++ ([] ++ i :: rest) := by
        rw [List.nil_append, ← hdrop, List.take_append_drop]
      have hrest : rest.length = 143 * n := by
        have hsum := congrArg List.length hdrop
        rw [List.length_drop, List.length_cons] at hsum
        omega
      have hmem : ∀ j ∈ i :: rest, j.spirdFifoInReady = true := fun j hj =>
        his j (List.mem_of_mem_drop (hdrop ▸ hj))
      rw [hsplit]
      exact .round (by rw [List.length_take]; omega) (fun j hj => absurd hj List.not_mem_nil)
        (hmem i List.mem_cons_self) (ih (fun j hj => hmem j (List.mem_cons_of_mem i hj)) hrest)

theorem At.length {w : Word} (h : At .readLen s) (hi : Carries w i) (hmax : w.toNat ≤ 4095) :
    Byte w.toNat 0 0 (step s i) ∧ (step s i).handed = [] := by
  obtain ⟨hcs, hlen⟩ := h
  have hns : s.ns i = .readByte := by simp [State.ns, hcs, hi.2.1]
  have hwidth : (w.setWidth 12).toNat = w.toNat := by
    rw [BitVec.toNat_setWidth, Nat.mod_eq_of_lt (by omega)]
  have haxi : s.sAxi i = (false, 0) := by simp [State.sAxi, hcs]
  refine ⟨⟨hns, by simp [step, hcs, hns], by simp [step, hcs, hlen], ?_⟩,
    by simp [State.handed, step, haxi]⟩
  rw [show (step s i).readLen = w.setWidth 12 by simp [step, hcs, hi.2.1, hi.2.2], hwidth]

theorem over_low (hcs : s.cs = .over) (his : ∀ i ∈ is, Quiet false i) :
    (run s is).cs = .over ∧ loaded s is = [] := by
  induction is generalizing s with
  | nil => exact ⟨hcs, rfl⟩
  | cons i is ih =>
      have hi := his i List.mem_cons_self
      obtain ⟨hrun, hloaded⟩ := ih (s := step s i) (by simp [step, State.ns, hcs, hi.1])
        fun j hj => his j (List.mem_cons_of_mem i hj)
      exact ⟨hrun, by rw [loaded, handed_quiet hi (by simp [hcs]), hloaded, List.append_nil]⟩

theorem over_high (hcs : s.cs = .over) (his : ∀ i ∈ is, Quiet true i) (hne : is ≠ []) :
    Rest (run s is) ∧ loaded s is = [] := by
  obtain ⟨i, is, rfl⟩ := List.exists_cons_of_ne_nil hne
  have hi := his i List.mem_cons_self
  have hidle : Rest (step s i) :=
    ⟨by simp [step, State.ns, hcs, hi.1], handed_quiet hi (by simp [hcs])⟩
  obtain ⟨hrun, hloaded⟩ := hidle.pause fun j hj => his j (List.mem_cons_of_mem i hj)
  exact ⟨hrun, by rw [loaded, hidle.handed, hloaded, List.append_nil]⟩

/-- **The clocks behind the loop** end the read, if `nios_cs` is high in one of them. -/
theorem over_released {low high loop rest : List Input} (hcs : s.cs = .over)
    (hlow : ∀ j ∈ low, Quiet false j) (hhigh : ∀ j ∈ high, Quiet true j) (hne : high ≠ [])
    (hsplit : low ++ high = loop ++ rest) (hreleased : ∃ i ∈ rest, i.niosCs = true) :
    Rest (run s rest) ∧ loaded s rest = [] := by
  rcases List.append_eq_append_iff.mp hsplit with ⟨early, -, rfl⟩ | ⟨late, rfl, rfl⟩
  · obtain ⟨i, hi, -⟩ := hreleased
    exact over_high hcs (fun j hj => hhigh j (List.mem_append_right early hj)) (List.ne_nil_of_mem hi)
  · obtain ⟨hover, hnone⟩ := over_low hcs fun j hj => hlow j (List.mem_append_right loop hj)
    obtain ⟨hrest, hnone'⟩ := over_high hover hhigh hne
    exact ⟨by rw [run_append]; exact hrest, by rw [loaded_append, hnone, hnone', List.append_nil]⟩

end Read

/-! ### Whole transactions -/

section Transactions

variable {s : State} {is : List Input}

theorem header_loaded {addrH addrL control : Word} {ws : List Word} {lead words : List Input}
    {i : Input} (h : Rest s) (hlead : ∀ j ∈ lead, Quiet false j) (htwo : 2 ≤ lead.length)
    (hi : Carries addrH i) (hwords : Words addrH (addrL :: control :: ws) words) :
    ∃ header data, lead ++ i :: words = header ++ data ∧ Words control ws data ∧
      At .control (run s header) ∧
        loaded s header = [addrH.setWidth 8, addrL.setWidth 8, control.setWidth 8] := by
  obtain ⟨hstart, hnone⟩ := h.lead hlead htwo
  obtain ⟨hfirst, hbyte⟩ := hstart.word (.inl rfl) hi
  cases hwords with
  | @word _ _ _ gap₁ is₁ i₁ _ hgap₁ hi₁ hrest =>
      cases hrest with
      | @word _ _ _ gap₂ data i₂ _ hgap₂ hi₂ hdata =>
          obtain ⟨hsecond, hbytes₁⟩ := hfirst.header (.inl rfl) hgap₁ hi₁
          obtain ⟨hthird, hbytes₂⟩ := hsecond.header (.inr rfl) hgap₂ hi₂
          refine ⟨lead ++ i :: (gap₁ ++ [i₁] ++ (gap₂ ++ [i₂])), data, by simp, hdata, ?_, ?_⟩
          · rw [run_append]
            change At .control (run (step (run s lead) i) (gap₁ ++ [i₁] ++ (gap₂ ++ [i₂])))
            rw [run_append]
            exact hthird
          · rw [loaded_append, hnone, List.nil_append, loaded, hbyte, loaded_append, hbytes₁, hbytes₂]
            rfl

/-- **A transaction that writes.** -/
theorem write_loaded {addrH addrL control : Word} {data : List Word} {p : Passage} (h : Rest s)
    (hbus : p.OnBus s) (hwrite : p.transaction = .write addrH addrL control data) :
    Rest (run s p.clocks) ∧ loaded s p.clocks = p.transaction.sent := by
  obtain ⟨hlegal, htwo, hlead, hfirst, hwords, hlow, htwo', hhigh, -⟩ := hbus
  have hlast : p.transaction.last = data.getLastD control := by
    rw [hwrite, Transaction.last, Transaction.rest, List.getLastD_cons, List.getLastD_cons]
  rw [hlast] at hlow hhigh
  rw [hwrite] at hlegal hfirst hwords ⊢
  obtain ⟨header, rest, hsplit, hdata, hcontrol, hheader⟩ := header_loaded h hlead htwo hfirst hwords
  obtain ⟨hwriting, hloaded⟩ := hdata.write (.inr ⟨hcontrol, hlegal⟩)
  obtain ⟨hwaiting, hquiet, -⟩ := hwriting.waiting hlow
  obtain ⟨hrest, hnone⟩ := hwaiting.tail hhigh htwo'
  have hall : p.clocks = header ++ (rest ++ (p.low ++ p.high)) := by
    rw [Passage.clocks, Passage.selected, List.append_assoc, List.cons_append, List.append_assoc,
      ← List.append_assoc header, ← hsplit, List.append_assoc, List.cons_append]
  rw [hall]
  refine ⟨by rw [run_append, run_append, run_append]; exact hrest, ?_⟩
  rw [loaded_append, loaded_append, loaded_append, hheader, hloaded, hquiet, hnone, List.append_nil,
    List.append_nil]
  rfl

/-- **A transaction that reads**, and is released behind its rounds. -/
theorem read_loaded {addrH addrL control len : Word} {p : Passage} (h : Rest s) (hbus : p.OnBus s)
    (hread : p.transaction = .read addrH addrL control len) (hreleased : p.Released) :
    Rest (run s p.clocks) ∧ loaded s p.clocks = p.transaction.sent := by
  obtain ⟨hlegal, htwo, hlead, hfirst, hwords, hlow, htwo', hhigh, -⟩ := hbus
  obtain ⟨loop, rest, hbehind, hrounds, hlast⟩ := hreleased addrH addrL control len hread
  rw [hread] at hlegal hfirst hwords ⊢
  obtain ⟨hbit, hpos, hmax⟩ := hlegal
  obtain ⟨header, data, hsplit, hdata, hcontrol, hheader⟩ := header_loaded h hlead htwo hfirst hwords
  cases hdata with
  | @word _ _ _ gap _ j hne hgap hj hnil =>
      cases hnil
      obtain ⟨k, gap, rfl⟩ := List.exists_cons_of_ne_nil hne
      obtain ⟨hreadLen, hbyte⟩ := hcontrol.control (hgap k List.mem_cons_self)
      rw [if_neg (by rw [hbit]; decide)] at hreadLen
      obtain ⟨hready, hquiet⟩ := hreadLen.waiting (.inr (.inr (.inr (.inl rfl))))
        fun m hm => (hgap m (List.mem_cons_of_mem k hm)).1
      obtain ⟨hloop, hlen⟩ := hready.length hj hmax
      have hnothing : ∀ m ∈ p.low ++ p.high, m.spiwrFifoOutValid = false := fun m hm =>
        (List.mem_append.mp hm).elim (fun hm => (hlow m hm).1.2) fun hm => (hhigh m hm).1.2
      obtain ⟨hover, hzeros⟩ := hrounds.over hloop (Nat.zero_add _) hpos hmax
        fun m hm => hnothing m (by rw [hbehind]; exact List.mem_append_left _ hm)
      obtain ⟨hrest, hnone⟩ := over_released hover (fun m hm => (hlow m hm).1)
        (fun m hm => (hhigh m hm).1) (List.ne_nil_of_length_pos (by omega)) hbehind hlast
      have hall : p.clocks = header ++ (k :: gap ++ [j]) ++ (loop ++ rest) := by
        rw [← hbehind, ← hsplit, Passage.clocks, Passage.selected]
        simp only [List.append_assoc, List.cons_append]
      have hdata : run (run s header) (k :: gap ++ [j]) = step (run (step (run s header) k) gap) j := by
        rw [run_append]
        rfl
      have hwait : loaded (run s header) (k :: gap ++ [j]) = [] := by
        rw [loaded_append, loaded, hbyte, hquiet, List.nil_append, List.nil_append, loaded]
        change (step (run (step (run s header) k) gap) j).handed ++ _ = _
        rw [hlen]
        rfl
      generalize k :: gap ++ [j] = wait at hall hdata hwait
      rw [hall, run_append, run_append, run_append, hdata]
      refine ⟨hrest, ?_⟩
      rw [loaded_append, loaded_append, loaded_append, hheader, hwait, run_append, hdata, hzeros, hnone,
        List.append_nil, List.append_nil]
      rfl

theorem traffic_loaded {ps : List Passage} (htraffic : Traffic s ps) (hreleased : ∀ p ∈ ps, p.Released)
    (h : Rest s) :
    Rest (run s (ps.flatMap Passage.clocks)) ∧
      loaded s (ps.flatMap Passage.clocks) = ps.flatMap fun p => p.transaction.sent := by
  induction ps generalizing s with
  | nil => exact ⟨h, rfl⟩
  | cons p ps ih =>
      obtain ⟨hbus, hmore⟩ := htraffic
      obtain ⟨hrest, hloaded⟩ : Rest (run s p.clocks) ∧ loaded s p.clocks = p.transaction.sent := by
        cases ht : p.transaction with
        | write addrH addrL control data => exact ht ▸ write_loaded h hbus ht
        | read addrH addrL control len =>
            exact ht ▸ read_loaded h hbus ht (hreleased p List.mem_cons_self)
      obtain ⟨hend, hrun⟩ := ih hmore (fun q hq => hreleased q (List.mem_cons_of_mem p hq)) hrest
      rw [List.flatMap_cons, List.flatMap_cons, run_append, loaded_append, hloaded, hrun]
      exact ⟨hend, rfl⟩

end Transactions

theorem rest_reset (s : State) : Rest s.reset := ⟨rfl, rfl⟩

/-- **The bridge** hands on the bytes of the transactions, one after the other and no others, if every
read is released behind its rounds. -/
theorem bytes_of_traffic (s : State) {pause : List Input} {ps : List Passage}
    (hpause : ∀ i ∈ pause, Quiet true i) (htraffic : Traffic (run s.reset pause) ps)
    (hreleased : ∀ p ∈ ps, p.Released) :
    bytes s.reset (pause ++ ps.flatMap Passage.clocks) = ps.flatMap fun p => p.transaction.sent := by
  obtain ⟨hwaiting, hnone⟩ := (rest_reset s).pause hpause
  obtain ⟨hrest, hloaded⟩ := traffic_loaded htraffic hreleased hwaiting
  have hbytes := bytes_append_handed s.reset (pause ++ ps.flatMap Passage.clocks)
  rwa [run_append, hrest.handed, (rest_reset s).handed, loaded_append, hnone, hloaded, List.append_nil,
    List.nil_append, List.nil_append] at hbytes

/-! ### A write and a read -/

def hold (niosCs : Bool) (d : Word) : Input := ⟨niosCs, false, d, true, false, 0⟩

def put (w : Word) : Input := ⟨false, true, w, true, false, 0⟩

/-- `spi_master_core` has a byte. -/
def answer (d : Word) : Input := ⟨false, false, d, true, true, 0xa5⟩

/-- `g` idle clocks in front of each word. -/
def spaced (g : ℕ) : Word → List Word → List Input
  | _, [] => []
  | d, w :: ws => List.replicate g (hold false d) ++ put w :: spaced g w ws

/-- The rounds of `n` bytes, each answered in clock 100. -/
def answered (d : Word) : ℕ → List Input
  | 0 => []
  | n + 1 => List.replicate 100 (hold false d) ++ answer d :: (List.replicate 42 (hold false d) ++ answered d n)

def passage (g : ℕ) (t : Transaction) (low : List Input) : Passage where
  transaction := t
  lead := List.replicate 2 (hold false 0)
  first := put t.first
  words := spaced g t.first t.rest
  low := low
  high := List.replicate 2 (hold true t.last)

theorem words_spaced {g : ℕ} (hg : 0 < g) (d : Word) (ws : List Word) : Words d ws (spaced g d ws) := by
  induction ws generalizing d with
  | nil => exact .done
  | cons w ws ih =>
      refine .word (fun hnil => ?_) (fun j hj => ?_) ⟨rfl, rfl, rfl⟩ (ih w)
      · exact hg.ne' ((List.replicate_eq_nil_iff _).mp hnil)
      · rw [List.eq_of_mem_replicate hj]
        exact ⟨⟨rfl, rfl⟩, rfl⟩

theorem onBus_passage {g : ℕ} {t : Transaction} {low : List Input} {s : State} (hg : 0 < g)
    (hlegal : t.Legal) (hlow : ∀ j ∈ low, j = hold false t.last ∨ j = answer t.last)
    (hread : ∀ addrH addrL control len, t = .read addrH addrL control len →
      len.toNat ≤ (stored s (passage g t low).selected).length) : (passage g t low).OnBus s where
  legal := hlegal
  two_lead := le_rfl
  lead j hj := by
    rw [List.eq_of_mem_replicate hj]
    exact ⟨rfl, rfl⟩
  first := ⟨rfl, rfl, rfl⟩
  words := words_spaced hg _ _
  low j hj := by
    rcases hlow j hj with rfl | rfl <;> exact ⟨⟨rfl, rfl⟩, rfl⟩
  two_high := le_rfl
  high j hj := by
    rw [List.eq_of_mem_replicate hj]
    exact ⟨⟨rfl, rfl⟩, rfl⟩
  read := hread

theorem mem_answered {d : Word} {n : ℕ} {j : Input} (hj : j ∈ answered d n) :
    j = hold false d ∨ j = answer d := by
  induction n with
  | zero => exact absurd hj List.not_mem_nil
  | succ n ih =>
      rw [answered, List.mem_append, List.mem_cons, List.mem_append] at hj
      rcases hj with hj | rfl | hj | hj
      · exact .inl (List.eq_of_mem_replicate hj)
      · exact .inr rfl
      · exact .inl (List.eq_of_mem_replicate hj)
      · exact ih hj

theorem length_answered (d : Word) (n : ℕ) : (answered d n).length = 143 * n := by
  induction n with
  | zero => rfl
  | succ n ih =>
      simp only [answered, List.length_append, List.length_cons, List.length_replicate, ih]
      omega

theorem rounds_answered (d : Word) (n : ℕ) : Rounds n (answered d n) :=
  rounds_of_ready (fun j hj => by rcases mem_answered hj with rfl | rfl <;> rfl) (length_answered d n)

/-- All registers at zero. -/
def dark : State := ⟨.idle, 0, 0, 0, false, 0, false, 0⟩

def writeOne : Transaction := .write 0x00 0x01 0x0c [0x55]

def readTwo : Transaction := .read 0x00 0x01 0x08 2

theorem bytes_of_traffic_two :
    bytes dark.reset ([] ++ [passage 1 writeOne [], passage 1 readTwo (answered 2 2)].flatMap Passage.clocks) =
      [0x00, 0x01, 0x0c, 0x55, 0x00, 0x01, 0x08, 0x00, 0x00] := by
  refine bytes_of_traffic dark (fun i hi => absurd hi List.not_mem_nil) ⟨?_, ?_, trivial⟩ fun p hp => ?_
  · exact onBus_passage (by decide) (show _ = _ by decide) (fun j hj => absurd hj List.not_mem_nil)
      fun _ _ _ _ h => Transaction.noConfusion h
  · refine onBus_passage (by decide) ⟨by decide, by decide, by decide⟩ (fun j hj => mem_answered hj) ?_
    rintro _ _ _ _ ⟨⟩
    decide +kernel
  · rcases List.mem_pair.mp hp with rfl | rfl
    · exact fun _ _ _ _ h => Transaction.noConfusion h
    · rintro _ _ _ _ ⟨⟩
      exact ⟨answered 2 2, List.replicate 2 (hold true 2), rfl, rounds_answered 2 2, _, List.mem_cons_self, rfl⟩

def readOne : Transaction := .read 0x00 0x01 0x08 1

/-- The byte is in the read FIFO, and twenty clocks later `nios_cs` goes high for two clocks. -/
def hasty : Passage :=
  passage 120 readOne (List.replicate 100 (hold false 1) ++ answer 1 :: List.replicate 20 (hold false 1))

/-- **The words of a write are lost** if the read loop before it is not over. -/
theorem bytes_lost :
    ¬ ∀ (s : State) (pause : List Input) (ps : List Passage), (∀ i ∈ pause, Quiet true i) →
      Traffic (run s.reset pause) ps →
        bytes s.reset (pause ++ ps.flatMap Passage.clocks) = ps.flatMap fun p => p.transaction.sent := by
  intro hall
  have hbytes := hall dark [] [hasty, passage 1 writeOne []] (fun i hi => absurd hi List.not_mem_nil)
    ⟨onBus_passage (by decide) ⟨by decide, by decide, by decide⟩ (fun j hj => ?_) ?_, ?_, trivial⟩
  · exact absurd hbytes (by decide +kernel)
  · rcases List.mem_append.mp hj with hj | hj
    · exact .inl (List.eq_of_mem_replicate hj)
    · rcases List.mem_cons.mp hj with rfl | hj
      · exact .inr rfl
      · exact .inl (List.eq_of_mem_replicate hj)
  · rintro _ _ _ _ ⟨⟩
    decide +kernel
  · exact onBus_passage (by decide) (show _ = _ by decide) (fun j hj => absurd hj List.not_mem_nil)
      fun _ _ _ _ h => Transaction.noConfusion h

end SingleScan.Fifo2spiBridge
