import Mathlib.Data.List.Infix
import SingleScan.Scanner
import SingleScan.Proof.Commands
import SingleScan.Proof.Rotation

/-!
# A download during a rotation

`command_module` writes the words of a table one by one into the RAM from which `compare_region`
reads, and does not wait for the end of a rotation. As long as no download of a layer is under way
while the comparison is busy, what a rotation reads for the layer is one table; a download that meets
a rotation mixes two.
-/

namespace SingleScan.Scanner

open Clocked CommandModule CommandLink

/-! ### How far the reader is -/

theorem loadAll_concat (regs : Regs) (command : BitVec 16) (i : Nat) (data : List Word) (d : Word) :
    regs.loadAll command i (data ++ [d]) =
      (regs.loadAll command i data).load command (i + data.length) d := by
  induction data generalizing regs i with
  | nil => rfl
  | cons e data ih =>
      rw [List.cons_append, Regs.loadAll, Regs.loadAll, ih, List.length_cons]
      congr 1
      omega

/-- The registers behind the first `n` packets. -/
def behind (ps : List Packet) (regs : Regs) (n : Nat) : Regs := (ps.take n).foldl Regs.apply regs

theorem behind_succ {ps todo : List Packet} {p : Packet} {n : Nat} (hdrop : ps.drop n = p :: todo)
    (regs : Regs) : behind ps regs (n + 1) = (behind ps regs n).apply p ∧ ps.drop (n + 1) = todo := by
  have hget : ps[n]? = some p := by
    rw [← List.head?_drop, hdrop, List.head?_cons]
  constructor
  · rw [behind, List.take_add_one, hget, Option.toList_some, List.foldl_append, behind]
    rfl
  · rw [← List.drop_drop, hdrop, List.drop_one, List.tail_cons]

/-- The reader has `n` packets behind it and is in the next one. -/
def Reached (ps : List Packet) (regs : Regs) (n : Nat) (r : Receiver) : Prop :=
  match r.stage with
  | .between => ps.drop n = r.todo ∧ r.regs = behind ps regs n
  | .head p => ps.drop n = p :: r.todo ∧ r.regs = behind ps regs n
  | .length p => ps.drop n = p :: r.todo ∧ r.regs = behind ps regs n
  | .payload p taken =>
      ps.drop n = p :: r.todo ∧
        r.regs = (behind ps regs n).loadAll p.command 0 (p.data.take taken)

theorem reached_take {ps : List Packet} {regs : Regs} {n : Nat} {r : Receiver} {w : Word}
    (h : Reached ps regs n r) (hnext : r.Next w) : ∃ n', Reached ps regs n' (r.take w) := by
  obtain ⟨rest, hrest⟩ := hnext
  obtain ⟨stage, todo, now⟩ := r
  cases stage with
  | between =>
      cases todo with
      | nil => simp [Receiver.rest, Stage.rest] at hrest
      | cons p todo => exact ⟨n, h⟩
  | head p => exact ⟨n, h⟩
  | length p =>
      obtain ⟨hdrop, hnow⟩ := h
      have hfirst : p.data.take 1 = [w] := by
        have hpos := p.nonempty
        simp only [Receiver.rest, Stage.rest] at hrest
        cases hdata : p.data with
        | nil => simp [hdata] at hpos
        | cons d data =>
            rw [hdata] at hrest
            simp only [List.cons_append, List.cons.injEq] at hrest
            simp [hrest.1]
      refine ⟨n, hdrop, ?_⟩
      simp only [Receiver.take, hfirst]
      exact congrArg (fun old : Regs => old.load p.command 0 w) hnow
  | payload p taken =>
      obtain ⟨hdrop, hnow⟩ := h
      by_cases hlt : taken < p.data.length
      · refine ⟨n, ?_⟩
        simp only [Receiver.take, if_pos hlt]
        refine ⟨hdrop, ?_⟩
        have hw : p.data[taken]? = some w := by
          simp only [Receiver.rest, Stage.rest] at hrest
          rw [List.drop_eq_getElem_cons hlt] at hrest
          simp only [List.cons_append, List.cons.injEq] at hrest
          rw [List.getElem?_eq_getElem hlt, hrest.1]
        have hlength : (p.data.take taken).length = taken := by
          rw [List.length_take]
          omega
        rw [List.take_add_one, hw, Option.toList_some, loadAll_concat, hlength, Nat.zero_add]
        exact congrArg (fun old : Regs => old.load p.command taken w) hnow
      · refine ⟨n + 1, ?_⟩
        simp only [Receiver.take, if_neg hlt]
        obtain ⟨hbehind, hdrop'⟩ := behind_succ hdrop regs
        refine ⟨hdrop', ?_⟩
        rw [hbehind, Regs.apply]
        rw [List.take_of_length_le (by omega)] at hnow
        exact hnow

/-! ### Writes under way -/

/-- A download of layer `k` is under way: the machine takes its data words. -/
def Downloading (k : Layer) (s : CommandModule.State) : Prop :=
  s.cs = .data ∧ s.recvCommand = wrRegion k

instance (k : Layer) (s : CommandModule.State) : Decidable (Downloading k s) :=
  inferInstanceAs (Decidable (_ ∧ _))

/-- A write port is only active while its layer is downloaded. -/
def Guarded (s : CommandModule.State) : Prop :=
  ∀ k, s.regionWren k = true → Downloading k s

theorem guarded_step (s : CommandModule.State) (bus : Bus Word) :
    Guarded (CommandModule.step s bus) := by
  intro k hwren
  have hloads : s.loads bus (wrRegion k) := by
    by_contra hno
    simp [CommandModule.step, hno] at hwren
  obtain ⟨hns, hcommand⟩ := hloads
  exact ⟨hns, by simp [CommandModule.step, hns, hcommand]⟩

theorem writeRam_of_guarded {s : CommandModule.State} {k : Layer} (hguard : Guarded s)
    (hfree : ¬ Downloading k s) : s.writeRam k = s.regionRam k := by
  funext a
  have hwren : s.regionWren k ≠ true := fun hwren => hfree (hguard k hwren)
  simp [CommandModule.State.writeRam, hwren]

/-- With no download of the layer under way, its RAM is what some of the packets have left. -/
theorem regionRam_of_free {ps : List Packet} {regs : Regs} {n : Nat} {b : Bool} {r : Receiver}
    {s : CommandModule.State} {k : Layer} (hreached : Reached ps regs n r) (hfollows : Follows b r s)
    (hguard : Guarded s) (hfree : ¬ Downloading k s) :
    ∃ m, s.regionRam k = (behind ps regs m).regionRam k := by
  have hram : s.regionRam k = r.regs.regionRam k := by
    rw [← writeRam_of_guarded hguard hfree, hfollows.ram]
  rw [hram]
  obtain ⟨stage, todo, now⟩ := r
  cases stage with
  | between | head p | length p => exact ⟨n, by rw [hreached.2]⟩
  | payload p taken =>
      obtain ⟨hdrop, hnow⟩ := hreached
      by_cases hcommand : wrRegion k = p.command
      · obtain ⟨hcs, hrecv, -, -, -, htaken⟩ := hfollows.place
        have hfull : taken = p.data.length := by
          by_contra hmore
          rw [if_neg (fun h => hmore h.1)] at hcs
          exact hfree ⟨hcs, by rw [hrecv, hcommand]⟩
        refine ⟨n + 1, ?_⟩
        rw [(behind_succ hdrop regs).1, Regs.apply, hnow, hfull, List.take_length]
      · refine ⟨n, ?_⟩
        rw [hnow]
        exact (loadAll_of_ne).2.2 k hcommand

/-! ### The runs -/

/-- No download of the layer is under way while the comparison is busy. -/
def Apart (k : Layer) (s : State) : Prop :=
  s.alarm.compare.cs ≠ .idle → ¬ Downloading k s.command

instance (k : Layer) (s : State) : Decidable (Apart k s) := inferInstanceAs (Decidable (_ → _))

/-- What holds between two edges, with the clocks `rest` of `clk_100m` still to come. -/
structure Sound (ps : List Packet) (regs : Regs) (k : Layer) (rest : List (Bus Word)) (s : State) :
    Prop where
  follows : ∃ b n r, Follows b r s.command ∧ Reached ps regs n r ∧ Spaced b r.rest rest
  guarded : Guarded s.command
  current : s.alarm.compare.cs ≠ .idle →
    ∀ read ∈ s.reads, read.2 k = s.command.regionRam k read.1
  whole : ∃ m, ∀ read ∈ s.reads, read.2 k = (behind ps regs m).regionRam k read.1

variable {ps : List Packet} {regs : Regs} {k : Layer} {rest : List (Bus Word)} {s : State}

theorem sound_clk100m {bus : Bus Word} (h : Sound ps regs k (bus :: rest) s) (hapart : Apart k s) :
    Sound ps regs k rest (step s (.clk100m bus)) := by
  obtain ⟨b, n, r, hfollows, hreached, hspaced⟩ := h.follows
  constructor
  · generalize hws : r.rest = ws at hspaced
    cases hspaced with
    | quiet hspaced => exact ⟨false, n, r, follows_quiet _ hfollows, hreached, hws ▸ hspaced⟩
    | word hspaced =>
        have hnext : r.Next _ := ⟨_, hws⟩
        obtain ⟨n', hreached'⟩ := reached_take hreached hnext
        refine ⟨true, n', _, follows_word _ hfollows hnext, hreached', ?_⟩
        rw [(take_rest_final hws).1]
        exact hspaced
  · exact guarded_step s.command bus
  · intro hbusy read hread
    have hram : (CommandModule.step s.command bus).regionRam k = s.command.regionRam k :=
      writeRam_of_guarded h.guarded (hapart hbusy)
    calc
      read.2 k = s.command.regionRam k read.1 := h.current hbusy read hread
      _ = (CommandModule.step s.command bus).regionRam k read.1 := by rw [hram]
  · exact h.whole

theorem sound_rxClkout {m : Measurement} (h : Sound ps regs k rest s) (hapart : Apart k s) :
    Sound ps regs k rest (step s (.rxClkout m)) := by
  have hreads : ∀ read ∈ (step s (.rxClkout m)).reads,
      s.alarm.compare.cs ≠ .idle ∧ read.2 k = s.command.regionRam k read.1 := by
    intro read hread
    simp only [step] at hread
    split_ifs at hread with hidle hrden
    · cases hread
    · refine ⟨hidle, ?_⟩
      rcases List.mem_append.1 hread with hold | hnew
      · exact h.current hidle read hold
      · rw [List.mem_singleton] at hnew
        subst hnew
        have hcs : s.alarm.compare.cs = .read := by
          simpa [CompareRegion.State.regionRden] using hrden
        simp only [AlarmPath.step_rddata, if_pos hcs]
        rfl
    · exact ⟨hidle, h.current hidle read hread⟩
  constructor
  · exact h.follows
  · exact h.guarded
  · exact fun _ read hread => (hreads read hread).2
  · by_cases hidle : s.alarm.compare.cs = .idle
    · exact ⟨0, fun read hread => absurd hidle (hreads read hread).1⟩
    · obtain ⟨b, n, r, hfollows, hreached, -⟩ := h.follows
      obtain ⟨m', hm'⟩ := regionRam_of_free hreached hfollows h.guarded (hapart hidle)
      exact ⟨m', fun read hread => by rw [(hreads read hread).2, hm']⟩

/-- **The run lemma.** -/
theorem sound_run {edges : List Edge} {bus : List (Bus Word)} (hfront : busOf edges <+: bus)
    (hstart : Sound ps regs k bus s)
    (hapart : ∀ before e, before ++ [e] <+: edges → Apart k (run s before)) :
    ∃ rest, Sound ps regs k rest (run s edges) := by
  induction edges generalizing s bus with
  | nil => exact ⟨bus, hstart⟩
  | cons e edges ih =>
      have hnow : Apart k s := hapart [] e (by simp)
      have hlater : ∀ before e', before ++ [e'] <+: edges → Apart k (run (step s e) before) := by
        intro before e' hbefore
        exact hapart (e :: before) e' (by simpa using hbefore)
      cases e with
      | clk100m b =>
          obtain ⟨tail, rfl⟩ := hfront
          exact ih ⟨tail, rfl⟩ (sound_clk100m hstart hnow) hlater
      | rxClkout m => exact ih hfront (sound_rxClkout hstart hnow) hlater

/-- The RAM of layer `k` behind the first `n` calls: the table that was downloaded last. -/
def tableAfter (k : Layer) (ram : BitVec 10 → BitVec 18) (sends : List Send) (n : Nat) :
    BitVec 10 → BitVec 18 :=
  (sends.take n).foldl (Send.store k) ram

theorem tableAfter_download {k : Layer} {sends : List Send} {n : Nat} {buffer : BoundaryTable}
    (hcall : sends[n]? = some (.regionSave2fpga buffer k)) (ram : BitVec 10 → BitVec 18) :
    tableAfter k ram sends (n + 1) = storeTable (tableAfter k ram sends n) buffer := by
  rw [tableAfter, List.take_add_one, hcall, Option.toList_some, List.foldl_append, tableAfter]
  simp [Send.store]

theorem behind_regionRam (sends : List Send) (regs : Regs) (n : Nat) (k : Layer) :
    (behind (sends.map Send.packet) regs n).regionRam k =
      tableAfter k (regs.regionRam k) sends n := by
  rw [behind, ← List.map_take, (apply_sends _ regs).2.2 k, tableAfter]

/-- **No torn table.** In a run in which no download of a layer is under way while the comparison is
busy, all that a rotation reads for the layer is from one and the same table. -/
theorem reads_one_table {s : State} (hwaiting : Waiting s.command) (hfresh : s.reads = [])
    {sends : List Send} {bus : List (Bus Word)} (hbus : Spaced false (sends.flatMap Send.words) bus)
    {edges : List Edge} (hfront : busOf edges <+: bus) {k : Layer}
    (hapart : ∀ before e, before ++ [e] <+: edges → Apart k (run s before)) :
    ∃ n, ∀ read ∈ (run s edges).reads,
      read.2 k = tableAfter k (s.command.regionRam k) sends n read.1 := by
  rw [sends_words] at hbus
  have hstart : Sound (sends.map Send.packet) (regsOf s.command) k bus s := by
    constructor
    · exact ⟨false, 0, _, hwaiting.follows _, ⟨rfl, rfl⟩, hbus⟩
    · intro j hwren
      rw [hwaiting.still j] at hwren
      cases hwren
    · simp [hfresh]
    · exact ⟨0, by simp [hfresh]⟩
  obtain ⟨rest, hsound⟩ := sound_run hfront hstart hapart
  obtain ⟨n, hwhole⟩ := hsound.whole
  refine ⟨n, fun read hread => ?_⟩
  rw [hwhole read hread, behind_regionRam]
  rfl

/-! ### A download in the middle of a rotation -/

/-- Out of reset, with zeros in the RAMs. -/
def begun : State where
  command := awake
  alarm := .reset AlarmPath.powerUp fun _ => 0
  reads := []

/-- The window shall open early; then a table for the inner layer is downloaded. -/
def twoSends : List Send :=
  [.setLaserParamter Param.zeroAngleRevise.command 2, .regionSave2fpga (fun _ => 5) .inner]

def twoSendsBus : List (Bus Word) := tight 0 (twoSends.flatMap Send.words)

/-- The zero mark, and a distance in the clocks 1 and 43. -/
def measured (t : ℕ) : Edge := .rxClkout ⟨t == 0, t == 1 || t == 43, 1000⟩

/-- The first two boundaries arrive between the first two reads of the rotation. -/
def tornEdges : List Edge :=
  (twoSendsBus.take 8).map .clk100m ++ (List.range' 0 6).map measured ++
    ((twoSendsBus.drop 8).take 8).map .clk100m ++ (List.range' 6 40).map measured

/-- The download waits until the rotation is over. -/
def calmEdges : List Edge :=
  (twoSendsBus.take 8).map .clk100m ++ (List.range' 0 46).map measured

theorem busOf_map_append (bus : List (Bus Word)) (edges : List Edge) :
    busOf (bus.map .clk100m ++ edges) = bus ++ busOf edges := by
  simp [busOf, List.filterMap_append, List.filterMap_map]

theorem busOf_measured (ts : List ℕ) (edges : List Edge) :
    busOf (ts.map measured ++ edges) = busOf edges := by
  simp [busOf, List.filterMap_append, List.filterMap_map, measured]

theorem busOf_calmEdges : busOf calmEdges <+: twoSendsBus := by
  have hbus : busOf calmEdges = twoSendsBus.take 8 := by
    rw [calmEdges, busOf_map_append, ← List.append_nil (List.map _ _), busOf_measured]
    exact List.append_nil _
  rw [hbus]
  exact List.take_prefix 8 _

theorem busOf_tornEdges : busOf tornEdges <+: twoSendsBus := by
  have hbus : busOf tornEdges = twoSendsBus.take 16 := by
    rw [tornEdges, List.append_assoc, List.append_assoc, busOf_map_append, busOf_measured,
      busOf_map_append, ← List.append_nil (List.map measured _), busOf_measured]
    exact (congrArg _ (List.append_nil _)).trans List.take_add.symm
  rw [hbus]
  exact List.take_prefix 16 _

theorem reads_one_table_calm :
    busOf calmEdges <+: twoSendsBus ∧ (run begun calmEdges).reads.length = 2 ∧
      ∃ n, ∀ read ∈ (run begun calmEdges).reads,
        read.2 0 = tableAfter 0 (begun.command.regionRam 0) twoSends n read.1 := by
  have hapart : ∀ before ∈ calmEdges.inits, Apart 0 (run begun before) := by
    decide +kernel
  refine ⟨busOf_calmEdges, by decide +kernel, ?_⟩
  refine reads_one_table waiting_awake rfl (spaced_tight 0 _) busOf_calmEdges ?_
  intro before e hbefore
  exact hapart before ((List.mem_inits _ _).2 ((List.prefix_append before [e]).trans hbefore))

/-- The rotation reads the old boundary for index 0 and the new one for index 1. -/
theorem reads_torn :
    ¬ ∀ (sends : List Send) (bus : List (Bus Word)) (edges : List Edge),
      Spaced false (sends.flatMap Send.words) bus → busOf edges <+: bus →
        ∀ k, ∃ n, ∀ read ∈ (run begun edges).reads,
          read.2 k = tableAfter k (begun.command.regionRam k) sends n read.1 := by
  intro hall
  obtain ⟨n, htable⟩ := hall twoSends _ tornEdges (spaced_tight 0 _) busOf_tornEdges 0
  have hreads : ((run begun tornEdges).reads.map fun read => (read.1, read.2 0)) =
      [(0, 0), (1, 5)] := by
    decide +kernel
  have hfrom : ∀ a v, (a, v) ∈ [((0 : BitVec 10), (0 : BitVec 18)), (1, 5)] →
      v = tableAfter 0 (begun.command.regionRam 0) twoSends n a := by
    intro a v hmem
    rw [← hreads] at hmem
    obtain ⟨read, hread, heq⟩ := List.mem_map.1 hmem
    obtain ⟨rfl, rfl⟩ := Prod.mk.inj heq
    exact htable read hread
  by_cases hbefore : n ≤ 1
  · have hold := hfrom 1 5 (by simp)
    obtain rfl | rfl : n = 0 ∨ n = 1 := by omega
    · exact absurd hold (by decide)
    · exact absurd hold (by decide)
  · have hnew := hfrom 0 0 (by simp)
    have hall : tableAfter 0 (begun.command.regionRam 0) twoSends n =
        tableAfter 0 (begun.command.regionRam 0) twoSends 2 := by
      rw [tableAfter, tableAfter, List.take_of_length_le (show twoSends.length ≤ n by
        change 2 ≤ n
        omega)]
      rfl
    rw [hall, tableAfter_download rfl, storeTable, dif_pos (by decide)] at hnew
    exact absurd hnew (by decide)

end SingleScan.Scanner
