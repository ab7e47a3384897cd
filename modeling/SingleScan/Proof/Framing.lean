import SingleScan.Proof.MainLoop
import SingleScan.Proof.Pc2Dev

/-!
# The loop inside its input

The loop subtracts the length field of each packet from `len`. It ends, without a look at a header
outside the input, exactly when the input is framed.
-/

namespace SingleScan

open Pc2Dev

variable {φ : Type}

namespace Call

/-- `len` counts what lies between `buf` and the end of the input, up to the wrap of the `int`. -/
structure Follows (total : Word) (c : Call φ) : Prop where
  returned : c.returned = false
  len : c.len = total - c.buf

theorem follows_enter (d : Device φ) (total : Word) : Follows total (enter d total) :=
  ⟨rfl, (BitVec.sub_zero total).symm⟩

theorem Follows.running_iff {total : Word} {c : Call φ} (h : Follows total c) :
    c.running = true ↔ c.buf ≠ total := by
  have hzero : total - c.buf = 0#32 ↔ c.buf = total := by
    constructor
    · intro hsub
      calc c.buf = 0#32 + c.buf := (BitVec.zero_add _).symm
        _ = total - c.buf + c.buf := by rw [hsub]
        _ = total := BitVec.sub_add_cancel total c.buf
    · intro hbuf
      rw [hbuf, BitVec.sub_self]
  rw [running, h.returned, h.len, Bool.not_false, Bool.true_and, bne_iff_ne]
  exact not_congr hzero

section Loop

variable (board : Board φ) (socket : ℕ) (mem : Memory)

theorem after_succ (c : Call φ) (n : ℕ) :
    c.after board socket mem (n + 1) = (c.turn board socket mem).after board socket mem n :=
  Function.iterate_succ_apply (turn board socket mem) n c

theorem after_of_not_running {c : Call φ} (hrunning : c.running = false) (n : ℕ) :
    c.after board socket mem n = c :=
  Function.iterate_fixed (turn_of_not_running board socket mem hrunning) n

/-- The loop ends. -/
def Ends (c : Call φ) : Prop := ∃ n, (c.after board socket mem n).running = false

/-- No turn begins at a header outside of the input. -/
def Inside (total : Word) (c : Call φ) : Prop :=
  ∀ n, (c.after board socket mem n).running = true →
    (c.after board socket mem n).buf.toNat < total.toNat

variable {board socket mem}

theorem Follows.turn {total : Word} {c : Call φ} (h : Follows total c)
    (hrunning : c.running = true) (hlast : mem.last c.buf = false) :
    Follows total (c.turn board socket mem) ∧
      (c.turn board socket mem).buf = mem.next c.buf := by
  rw [Memory.last, Bool.or_eq_false_iff, beq_eq_false_iff_ne] at hlast
  obtain ⟨hcustom, hserved⟩ := hlast
  rw [turn_served board socket mem hrunning hcustom hserved]
  refine ⟨⟨h.returned, ?_⟩, rfl⟩
  show c.len - packetLen (mem.at c.buf) = total - (c.buf + packetLen (mem.at c.buf))
  rw [h.len, BitVec.sub_sub]

theorem running_turn_of_last {c : Call φ} (hrunning : c.running = true)
    (hlast : mem.last c.buf = true) : (c.turn board socket mem).running = false := by
  by_cases hstx : mem.at c.buf 0 = 0x02
  · rw [turn_telegram board socket mem hrunning hstx, running]
    simp
  · have hrefused : refused (mem.at c.buf) = true := by
      rw [Memory.last, Bool.or_eq_true, beq_iff_eq] at hlast
      exact hlast.resolve_left hstx
    rw [turn_refused board socket mem hrunning hstx hrefused, running]
    rfl

theorem Inside.turn {total : Word} {c : Call φ} (h : Inside board socket mem total c) :
    Inside board socket mem total (c.turn board socket mem) := by
  intro n hrunning
  rw [← after_succ] at hrunning ⊢
  exact h (n + 1) hrunning

theorem ends_and_inside_of_turn {total : Word} {c : Call φ} (hinside : c.buf.toNat < total.toNat)
    (hrest : Ends board socket mem (c.turn board socket mem) ∧
      Inside board socket mem total (c.turn board socket mem)) :
    Ends board socket mem c ∧ Inside board socket mem total c := by
  obtain ⟨⟨n, hend⟩, hbounds⟩ := hrest
  refine ⟨⟨n + 1, by rwa [after_succ]⟩, ?_⟩
  intro n hrunning
  cases n with
  | zero => exact hinside
  | succ n =>
      rw [after_succ] at hrunning ⊢
      exact hbounds n hrunning

theorem ends_and_inside_of_not_running {total : Word} {c : Call φ} (hrunning : c.running = false) :
    Ends board socket mem c ∧ Inside board socket mem total c := by
  refine ⟨⟨0, hrunning⟩, ?_⟩
  intro n hstill
  rw [after_of_not_running board socket mem hrunning, hrunning] at hstill
  cases hstill

/-- A walk along the length fields that arrives is a loop that ends. -/
theorem ends_and_inside_of_arrivesWithin {total : Word} {bound : ℕ} {c : Call φ}
    (h : Follows total c)
    (harrives : Walk.arrivesWithin mem.next (Memory.within total) (mem.ends total) bound c.buf =
      true) :
    Ends board socket mem c ∧ Inside board socket mem total c := by
  induction bound generalizing c with
  | zero => cases harrives
  | succ bound ih =>
      cases hrunning : c.running with
      | false => exact ends_and_inside_of_not_running hrunning
      | true =>
          rw [Walk.arrivesWithin, Bool.or_eq_true, Bool.and_eq_true, Memory.ends, Bool.or_eq_true,
            Bool.and_eq_true, beq_iff_eq] at harrives
          cases hlast : mem.last c.buf with
          | true =>
              have hwithin : Memory.within total c.buf = true := by
                obtain (htotal | ⟨hwithin, _⟩) | ⟨hwithin, _⟩ := harrives
                · exact absurd htotal (h.running_iff.mp hrunning)
                · exact hwithin
                · exact hwithin
              exact ends_and_inside_of_turn (of_decide_eq_true hwithin)
                (ends_and_inside_of_not_running (running_turn_of_last hrunning hlast))
          | false =>
              obtain (htotal | ⟨_, hends⟩) | ⟨hwithin, hrest⟩ := harrives
              · exact absurd htotal (h.running_iff.mp hrunning)
              · rw [hlast] at hends
                cases hends
              · obtain ⟨hfollows, hbuf⟩ := h.turn hrunning hlast
                rw [← hbuf] at hrest
                exact ends_and_inside_of_turn (of_decide_eq_true hwithin) (ih hfollows hrest)

theorem arrives_of_stopped {total : Word} {c : Call φ} (h : Follows total c)
    (hrunning : c.running = false) :
    Walk.Arrives mem.next (Memory.within total) (mem.ends total) c.buf := by
  have htotal : c.buf = total := by
    by_contra hne
    rw [h.running_iff.mpr hne] at hrunning
    cases hrunning
  exact Walk.arrives_here (by simp [Memory.ends, htotal])

/-- A loop that ends inside its input is a walk that arrives. -/
theorem arrives_of_not_running {total : Word} {n : ℕ} {c : Call φ} (h : Follows total c)
    (hend : (c.after board socket mem n).running = false)
    (hinside : Inside board socket mem total c) :
    Walk.Arrives mem.next (Memory.within total) (mem.ends total) c.buf := by
  induction n generalizing c with
  | zero => exact arrives_of_stopped h hend
  | succ n ih =>
      cases hrunning : c.running with
      | false => exact arrives_of_stopped h hrunning
      | true =>
          have hwithin : Memory.within total c.buf = true := decide_eq_true (hinside 0 hrunning)
          cases hlast : mem.last c.buf with
          | true => exact Walk.arrives_here (by simp [Memory.ends, hwithin, hlast])
          | false =>
              obtain ⟨hfollows, hbuf⟩ := h.turn hrunning hlast
              rw [after_succ] at hend
              have hrest := ih hfollows hend hinside.turn
              rw [hbuf] at hrest
              exact Walk.arrives_step hwithin hrest

/-- The offsets inside the input are as many as its bytes. -/
theorem card_offsets_le (n : ℕ) :
    ((Finset.range n).image (BitVec.ofNat 32)).card ≤ n := by
  calc ((Finset.range n).image (BitVec.ofNat 32)).card ≤ (Finset.range n).card :=
        Finset.card_image_le
    _ = n := Finset.card_range n

theorem mem_offsets {total offset : Word} (hwithin : Memory.within total offset = true) :
    offset ∈ (Finset.range total.toNat).image (BitVec.ofNat 32) := by
  rw [Finset.mem_image]
  exact ⟨offset.toNat, Finset.mem_range.mpr (of_decide_eq_true hwithin), BitVec.ofNat_toNat _ _⟩

end Loop

end Call

/-- **The loop inside its input.** `pc2dev_parse` returns and begins no packet outside of its input
exactly when the length fields in the input frame it. -/
theorem ends_inside_iff (board : Board φ) (socket : ℕ) (mem : Memory) (len : Word) (d : Device φ) :
    ((∃ fuel, (pc2devParse board socket mem len fuel d).isSome = true) ∧
        Call.Inside board socket mem len (Call.enter d len)) ↔
      mem.framed len = true := by
  have hreturns : (∃ fuel, (pc2devParse board socket mem len fuel d).isSome = true) ↔
      Call.Ends board socket mem (Call.enter d len) := by
    refine exists_congr fun fuel => ?_
    rw [pc2devParse]
    cases ((Call.enter d len).after board socket mem fuel).running <;> simp
  have hfollows : Call.Follows len (Call.enter d len) := Call.follows_enter d len
  rw [hreturns]
  constructor
  · intro ⟨⟨n, hend⟩, hinside⟩
    have harrives := Call.arrives_of_not_running hfollows hend hinside
    exact (Walk.arrives_iff (fun _ => Call.mem_offsets) (Call.card_offsets_le len.toNat) _).mp
      harrives
  · intro hframed
    exact Call.ends_and_inside_of_arrivesWithin hfollows hframed

/-- A flash of bytes. -/
def flashOfBytes : FlashDriver (Word → Byte) where
  present _ := true
  writeBlock flash _ addr data := fun a =>
    if h : (a - addr).toNat < 256 then data ⟨(a - addr).toNat, h⟩ else flash a
  read flash addr _ := fun i => flash (addr + BitVec.ofNat 32 i)
  eraseBlock flash addr len := fun a => if (a - addr).toNat < len.toNat then 0xff else flash a

/-- `"sRI 1"`. -/
def sRI1 : CString where
  text := [0x73, 0x52, 0x49, 0x20, 0x31]
  noNul := by decide
  behind := fun _ => 0

/-- `"sRA 1 3 2 F"`. -/
def sRA1 : CString where
  text := [0x73, 0x52, 0x41, 0x20, 0x31, 0x20, 0x33, 0x20, 0x32, 0x20, 0x46]
  noNul := by decide
  behind := fun _ => 0

/-- A table that knows one telegram. -/
def sRI1Table : Tim561 where
  tim561Index _ := sRI1
  tim561Respons _ := sRA1
  sMI03F4724744Start _ := sRA1
  sMI03F4724744Stop _ := sRA1
  sMIReply _ := sRA1
  sRIE6Reply _ := sRA1
  sRI15BReply := sRA1
  sRI1DCReply := sRA1
  noEtx _ := by decide
  answered _ := by decide

def sRI1Board : Board (Word → Byte) := ⟨flashOfBytes, sRI1Table⟩

/-- A device whose memories are all zero. -/
def zeroedDevice : Device (Word → Byte) where
  nios := zeroed
  resetNios := 0
  alarmRegion :=
    { lastIoValue := fun _ => 0, changeRegionFlag := 0, changeRegionValue := 0, wrWhich := 0
      rdWhich := 0, zenithSave := fun _ => 0, buffer := fun _ => 0, select := 0 }
  eeprom := fun _ => 0
  fpga := []
  pc2nios := { head := 0, command := 0, dataLen := 0 }
  nios2pc := { head := 0x1234, command := 0, dataLen := 0, value := 0 }
  image := { addr := 0, data := fun _ => 0 }
  flash := fun _ => 0
  sMI3EFlag := 0
  padding := fun _ => 0
  stack := fun _ => 0

/-- One packet of 12 bytes whose length field reads -12. -/
def standstill : Memory := fun a =>
  [0x12, 0x34, 0x40, 0x02, 0xff, 0xff, 0xff, 0xf4, 0x00, 0x00, 0x00, 0x00].getD a.toNat 0

/-- After any number of turns the loop is where it began. -/
theorem after_standstill (board : Board φ) (socket : ℕ) (d : Device φ) (n : ℕ) :
    Call.Follows 12 ((Call.enter d 12).after board socket standstill n) ∧
      ((Call.enter d 12).after board socket standstill n).buf = 0 := by
  induction n with
  | zero => exact ⟨Call.follows_enter d 12, rfl⟩
  | succ n ih =>
      obtain ⟨hfollows, hbuf⟩ := ih
      have hlast : standstill.last 0 = false := by decide
      rw [← hbuf] at hlast
      obtain ⟨hfollows', hbuf'⟩ :=
        hfollows.turn (hfollows.running_iff.mpr (by rw [hbuf]; decide)) hlast
      rw [Call.after, Function.iterate_succ_apply']
      refine ⟨hfollows', hbuf'.trans ?_⟩
      rw [hbuf]
      decide

theorem standstill_never_returns :
    ¬ ∃ fuel, (pc2devParse sRI1Board 0 standstill 12 fuel zeroedDevice).isSome = true := by
  rintro ⟨fuel, hreturns⟩
  obtain ⟨hfollows, hbuf⟩ := after_standstill sRI1Board 0 zeroedDevice fuel
  have hrunning := hfollows.running_iff.mpr (by rw [hbuf]; decide)
  rw [pc2devParse, if_pos hrunning] at hreturns
  cases hreturns

end SingleScan
