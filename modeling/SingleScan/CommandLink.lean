import SingleScan.Nios2FpgaProtocol
import Mathlib.Logic.Function.Basic

/-!
# The command link, abstractly

What the link is for: a packet names a command and carries data words, and each data word is handed
to the registers of that command once, in order. `Receiver` reads the words one at a time and knows
nothing of clocks, valid signals or counters; `Proof.CommandLink` shows that `command_module` follows
it clock by clock.
-/

namespace SingleScan.CommandLink

open CommandModule

/-- A packet the decoder reads completely: it has data, its length fits the length register, and only
a packet of one word carries a parameter command. -/
structure Packet where
  command : BitVec 16
  data : List Word
  closing : Word
  nonempty : 0 < data.length
  short : data.length + 1 < 2 ^ 16
  single : data.length = 1 ∨ ∀ p : Param, p.command ≠ command

/-- The words of a packet on the bus. -/
def Packet.words (p : Packet) : List Word :=
  (headCode ++ p.command) :: BitVec.ofNat 32 p.data.length :: (p.data ++ [p.closing])

/-- What the link maintains on the FPGA side. -/
structure Regs where
  param : (p : Param) → BitVec p.width
  laserPresdo : BitVec 240
  regionRam : RegionRam

/-- The effect of data word number `i` of a packet. -/
def Regs.load (regs : Regs) (command : BitVec 16) (i : Nat) (data : Word) : Regs where
  param := fun p => if command = p.command then p.decode (regs.param p) data else regs.param p
  laserPresdo :=
    if command = laserPseudo then regs.laserPresdo.setWidth 208 ++ data else regs.laserPresdo
  regionRam := fun k a =>
    if command = wrRegion k ∧ a = BitVec.ofNat 10 i then data.setWidth 18 else regs.regionRam k a

/-- The effect of the data words from number `i` on. -/
def Regs.loadAll (regs : Regs) (command : BitVec 16) : Nat → List Word → Regs
  | _, [] => regs
  | i, data :: rest => (regs.load command i data).loadAll command (i + 1) rest

/-- The effect of a packet. -/
def Regs.apply (regs : Regs) (p : Packet) : Regs := regs.loadAll p.command 0 p.data

/-- How far the reader is in the current packet. -/
inductive Stage
  | between
  | head (p : Packet)
  | length (p : Packet)
  | payload (p : Packet) (taken : Nat)

/-- The words of the current packet that are still to come. -/
def Stage.rest : Stage → List Word
  | .between => []
  | .head p => BitVec.ofNat 32 p.data.length :: (p.data ++ [p.closing])
  | .length p => p.data ++ [p.closing]
  | .payload p taken => p.data.drop taken ++ [p.closing]

structure Receiver where
  stage : Stage
  todo : List Packet
  regs : Regs

/-- All words still to come. -/
def Receiver.rest (r : Receiver) : List Word := r.stage.rest ++ r.todo.flatMap Packet.words

/-- The reader takes one word. -/
def Receiver.take (r : Receiver) (w : Word) : Receiver :=
  match r.stage, r.todo with
  | .between, [] => r
  | .between, p :: todo => { r with stage := .head p, todo := todo }
  | .head p, _ => { r with stage := .length p }
  | .length p, _ => { r with stage := .payload p 1, regs := r.regs.load p.command 0 w }
  | .payload p taken, _ =>
      if taken < p.data.length then
        { r with stage := .payload p (taken + 1), regs := r.regs.load p.command taken w }
      else { r with stage := .between }

/-- The word `w` is the one that comes next. -/
def Receiver.Next (r : Receiver) (w : Word) : Prop := ∃ rest, r.rest = w :: rest

/-! ### The calls of the Nios core -/

/-- A call that puts one packet on the link. -/
inductive Send
  | setLaserParamter (command : BitVec 16) (data : Word)
  | regionSave2fpga (buffer : BoundaryTable) (num : Layer)

def Send.words : Send → List Word
  | .setLaserParamter command data => SingleScan.setLaserParamter command data
  | .regionSave2fpga buffer num => SingleScan.regionSave2fpga buffer num

/-- The data words that the calls send for a command. -/
def dataFor (command : BitVec 16) (sends : List Send) : List Word :=
  sends.flatMap fun
    | .setLaserParamter c data => if c = command then [data] else []
    | .regionSave2fpga _ _ => []

/-- A RAM with a table stored from address 0 on. -/
def storeTable (ram : BitVec 10 → BitVec 18) (buffer : BoundaryTable) : BitVec 10 → BitVec 18 :=
  fun a => if h : a.toNat < targetNumber then (buffer ⟨a.toNat, h⟩).setWidth 18 else ram a

/-- What a call stores in the RAM of layer `k`. A parameter call that borrows the command of a region
stores its one word at address 0. -/
def Send.store (k : Layer) (ram : BitVec 10 → BitVec 18) : Send → BitVec 10 → BitVec 18
  | .setLaserParamter command data =>
      if command = wrRegion k then Function.update ram 0 (data.setWidth 18) else ram
  | .regionSave2fpga buffer num => if num = k then storeTable ram buffer else ram

end SingleScan.CommandLink
