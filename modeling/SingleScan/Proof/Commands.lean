import Mathlib.Data.List.Induction
import SingleScan.Proof.CommandLink

/-!
# What the command link delivers

Parameter and region packets arrive, in any order and with any gaps. A parameter register ends with
the last word of its command that it accepts; only `motor_speed` refuses words. The pattern that
`write_laser_presdo` sends does not arrive: its length word counts bytes and the decoder counts words.
-/

namespace SingleScan.CommandLink

open Clocked CommandModule

/-! ### Parameter and region packets -/

/-- The words a parameter register takes. -/
def Param.accepts (p : Param) (w : Word) : Bool :=
  p != .motorSpeed || (8 ≤ w.toNat && w.toNat ≤ 15)

theorem decode_of_accepts {p : Param} {w : Word} (h : Param.accepts p w = true)
    (old : BitVec p.width) : p.decode old w = p.decode p.reset w := by
  by_cases hp : p = .motorSpeed
  · subst hp
    have hrange : 8 ≤ w.toNat ∧ w.toNat ≤ 15 := by simpa [Param.accepts] using h
    exact (if_pos hrange).trans (if_pos hrange).symm
  · cases p <;> first | rfl | exact absurd rfl hp

theorem decode_of_refuses {p : Param} {w : Word} (h : Param.accepts p w = false)
    (old : BitVec p.width) : p.decode old w = old := by
  obtain ⟨rfl, hrange⟩ : p = .motorSpeed ∧ ¬ (8 ≤ w.toNat ∧ w.toNat ≤ 15) := by
    simpa [Param.accepts] using h
  exact if_neg hrange

/-- A register that has seen `words` holds the last one it accepted. -/
theorem foldl_decode (p : Param) (words : List Word) (old : BitVec p.width) :
    words.foldl p.decode old =
      ((words.filter (Param.accepts p)).getLast?).elim old (p.decode p.reset) := by
  induction words using List.reverseRecOn with
  | nil => rfl
  | append_singleton words w ih =>
      rw [List.foldl_append, List.foldl_cons, List.foldl_nil, List.filter_append]
      cases hw : Param.accepts p w with
      | true =>
          rw [List.filter_singleton, hw, cond_true, List.getLast?_concat, Option.elim_some]
          exact decode_of_accepts hw _
      | false =>
          rw [decode_of_refuses hw, ih, List.filter_singleton, hw, cond_false, List.append_nil]

/-- **The command link.** The packets of any calls, with at least one quiet clock behind each word,
are applied once and in order, and the machine is back in `IDLE`. -/
theorem calls_applied {s : State} (hwaiting : Waiting s) {sends : List Send} {bus : List (Bus Word)}
    (hbus : Spaced false (sends.flatMap Send.words) bus) :
    Waiting (run s bus) ∧
      regsOf (run s bus) = (sends.map Send.packet).foldl Regs.apply (regsOf s) ∧
      (∀ p : Param, (run s bus).param p =
        (((dataFor p.command sends).filter (Param.accepts p)).getLast?).elim
          (s.param p) (p.decode p.reset)) ∧
      (run s bus).laserPresdo =
        (dataFor laserPseudo sends).foldl (fun old d => old.setWidth 208 ++ d) s.laserPresdo ∧
      ∀ k, (run s bus).regionRam k = sends.foldl (Send.store k) (s.regionRam k) := by
  rw [sends_words] at hbus
  obtain ⟨hdone, hregs⟩ := run_packets hwaiting hbus
  obtain ⟨hparam, hpresdo, hram⟩ := apply_sends sends (regsOf s)
  rw [← hregs] at hparam hpresdo hram
  exact ⟨hdone, hregs, fun p => (hparam p).trans (foldl_decode p _ _), hpresdo, hram⟩

/-- Zeros in all three RAMs. -/
def clearRam : RegionRam := fun _ _ => 0

/-- Out of reset. -/
def awake : State := step (State.reset clearRam) ⟨false, 0⟩

theorem waiting_awake : Waiting awake := waiting_reset clearRam 0

/-- A frequency, a table for the inner layer whose words look like head words, another frequency. -/
def someSends : List Send :=
  [.setLaserParamter Param.laserFreq.command 5, .regionSave2fpga (fun _ => 0x1234) .inner,
    .setLaserParamter Param.laserFreq.command 0x1234a101]

theorem calls_applied_someSends :
    Spaced false (someSends.flatMap Send.words) (tight 0 (someSends.flatMap Send.words)) ∧
      (run awake (tight 0 (someSends.flatMap Send.words))).cs = .idle ∧
      (run awake (tight 0 (someSends.flatMap Send.words))).param .laserFreq = 0x1234a101 := by
  have hbus := spaced_tight 0 (someSends.flatMap Send.words)
  obtain ⟨hdone, _, hparam, _⟩ := calls_applied waiting_awake hbus
  exact ⟨hbus, hdone.cs, (hparam .laserFreq).trans (by decide)⟩

/-- The last word sent for a command does not decide every register: `motor_speed` keeps 9 or 10
when 20 arrives behind it. -/
theorem motorSpeed_not_last :
    ¬ ∃ decode : Word → BitVec 8, ∀ (sends : List Send) (bus : List (Bus Word)),
      Spaced false (sends.flatMap Send.words) bus →
        ∀ w, (dataFor Param.motorSpeed.command sends).getLast? = some w →
          (run awake bus).param .motorSpeed = decode w := by
  rintro ⟨decode, hdecode⟩
  have hspeed : ∀ first : Word,
      (run awake (tight 0 ([Send.setLaserParamter Param.motorSpeed.command first,
        .setLaserParamter Param.motorSpeed.command 20].flatMap Send.words))).param .motorSpeed =
          decode 20 :=
    fun first => hdecode _ _ (spaced_tight 0 _) 20 rfl
  exact absurd ((hspeed 9).trans (hspeed 10).symm) (by decide)

/-! ### The laser pattern -/

/-- The 240-bit big-endian value of the pattern. -/
def presdoValue (arr : Nat → BitVec 8) : BitVec 240 :=
  (List.range laserPresdoSize).foldl (fun value i => (value <<< 8) ||| (arr i).setWidth 240) 0

/-- The reader in the middle of the data words of a packet. -/
theorem foldl_take_payload {p : Packet} {todo : List Packet} {ws : List Word} {taken : Nat}
    {regs : Regs} (hfit : taken + ws.length ≤ p.data.length) :
    ws.foldl Receiver.take ⟨.payload p taken, todo, regs⟩ =
      ⟨.payload p (taken + ws.length), todo, regs.loadAll p.command taken ws⟩ := by
  induction ws generalizing taken regs with
  | nil => rfl
  | cons w ws ih =>
      rw [List.length_cons] at hfit
      have htake : Receiver.take ⟨.payload p taken, todo, regs⟩ w =
          ⟨.payload p (taken + 1), todo, regs.load p.command taken w⟩ := by
        simp only [Receiver.take, if_pos (show taken < p.data.length by omega)]
      rw [List.foldl_cons, htake, ih (by omega), List.length_cons, Regs.loadAll]
      congr 2
      omega

/-- The data words `write_laser_presdo` packs its pattern into. -/
def presdoWords (arr : Nat → BitVec 8) : List Word :=
  (strideIndices laserPresdoSize 4).map fun i =>
    ((arr i).setWidth 32 <<< 24) + ((arr (i + 1)).setWidth 32 <<< 16)
      + ((arr (i + 2)).setWidth 32 <<< 8) + ((arr (i + 3)).setWidth 32 <<< 0)

/-- The packet the decoder takes the words of `write_laser_presdo` for: thirty data words, of which
the closing word is the ninth. -/
def presdoPacket (arr : Nat → BitVec 8) : Packet where
  command := laserPseudo
  data := presdoWords arr ++ 0xccccdddd :: List.replicate 21 0
  closing := 0
  nonempty := by simp
  short := by simp [presdoWords, strideIndices, laserPresdoSize]
  single := .inr fun p => by cases p <;> decide

theorem presdoPacket_length (arr : Nat → BitVec 8) : (presdoPacket arr).data.length = 30 := by
  simp [presdoPacket, presdoWords, strideIndices, laserPresdoSize]

theorem writeLaserPresdo_eq (arr : Nat → BitVec 8) :
    writeLaserPresdo arr =
      0x1234a104 :: 30 :: (presdoWords arr ++ [0xccccdddd]) := by
  rw [writeLaserPresdo, map_writeFifo, presdoWords]

/-- The words of `write_laser_presdo` are the beginning of that packet. -/
theorem writeLaserPresdo_front (arr : Nat → BitVec 8) :
    writeLaserPresdo arr <+: [presdoPacket arr].flatMap Packet.words := by
  refine ⟨List.replicate 21 0 ++ [0], ?_⟩
  simp only [writeLaserPresdo_eq, Packet.words, List.flatMap_cons, List.flatMap_nil,
    List.append_nil, presdoPacket, List.cons_append, List.append_assoc, List.nil_append]
  rfl

theorem presdoWords_length (arr : Nat → BitVec 8) : (presdoWords arr).length = 8 := by
  simp [presdoWords, strideIndices, laserPresdoSize]

/-- Behind them the reader still waits for twenty-one data words. -/
theorem writeLaserPresdo_stage (arr : Nat → BitVec 8) (regs : Regs) :
    ((writeLaserPresdo arr).foldl Receiver.take ⟨.between, [presdoPacket arr], regs⟩).stage =
      .payload (presdoPacket arr) 9 := by
  obtain ⟨w, ws, hwords⟩ : ∃ w ws, presdoWords arr ++ [0xccccdddd] = w :: ws :=
    ⟨_, _, rfl⟩
  have hlength : ws.length = 8 := by
    have := congrArg List.length hwords
    simpa [presdoWords_length] using this.symm
  rw [writeLaserPresdo_eq, hwords, List.foldl_cons, List.foldl_cons, List.foldl_cons]
  simp only [Receiver.take]
  rw [foldl_take_payload (by rw [presdoPacket_length, hlength]; decide), hlength]

/-- **The laser pattern never arrives.** After the words of `write_laser_presdo` the decoder is still
in `DATA`, and the words of the next commands are its data. -/
theorem writeLaserPresdo_lost {s : State} (hwaiting : Waiting s) (arr : Nat → BitVec 8)
    {bus : List (Bus Word)} (hbus : Spaced false (writeLaserPresdo arr) bus) :
    ¬ ((run s bus).laserPresdo = presdoValue arr ∧ (run s bus).cs = .idle) := by
  rintro ⟨-, hidle⟩
  have hplace := (follows_run hwaiting (writeLaserPresdo_front arr) hbus).place
  rw [writeLaserPresdo_stage] at hplace
  have hcs := hplace.1
  rw [if_neg (by simp [presdoPacket_length]), hidle] at hcs
  exact Phase.noConfusion hcs

theorem writeLaserPresdo_lost_zeros :
    Spaced false (writeLaserPresdo fun _ => 0) (tight 0 (writeLaserPresdo fun _ => 0)) ∧
      ¬ ((run awake (tight 0 (writeLaserPresdo fun _ => 0))).laserPresdo =
          presdoValue (fun _ => 0) ∧
        (run awake (tight 0 (writeLaserPresdo fun _ => 0))).cs = .idle) :=
  ⟨spaced_tight 0 _, writeLaserPresdo_lost waiting_awake _ (spaced_tight 0 _)⟩

/-- With a pattern of zeros the machine is in `DATA`. -/
theorem writeLaserPresdo_zeros_in_data :
    ¬ ∀ (arr : Nat → BitVec 8) (bus : List (Bus Word)), Spaced false (writeLaserPresdo arr) bus →
      (run awake bus).laserPresdo = presdoValue arr ∧ (run awake bus).cs = .idle := by
  intro h
  have hidle := (h (fun _ => 0) _ (spaced_tight 0 _)).2
  exact absurd hidle (by decide)

end SingleScan.CommandLink
