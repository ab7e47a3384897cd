import SingleScan.Lib.Walk
import SingleScan.Pc2Dev

/-!
# What the PC sends

The fields of a packet that decide how the loop of `pc2dev_parse` moves on, and what it does for one
packet of the custom protocol.
-/

namespace SingleScan

/-- The command field of a packet. -/
def commandOf (buf : Bytes) : Word := ((buf 2).setWidth 32 <<< 8) + (buf 3).setWidth 32

/-- The parameter of a packet. -/
def paraOf (buf : Bytes) : Word := Pc2Dev.bigEndian buf 8

/-- The length of a packet, counted from its first byte. -/
def packetLen (buf : Bytes) : Word := Pc2Dev.bigEndian buf 4 + 12

/-- `PC_SET_ALARM_REGION` with a region out of range, where the parser returns. -/
def refused (buf : Bytes) : Bool :=
  commandOf buf == Pc2Dev.pcSetAlarmRegion && decide (15 < (paraOf buf).toNat)

namespace Memory

/-- Where the length field of the packet at an offset points. -/
def next (mem : Memory) (offset : Word) : Word := offset + packetLen (mem.at offset)

/-- The packet at an offset ends the call. -/
def last (mem : Memory) (offset : Word) : Bool :=
  mem.at offset 0 == 0x02 || refused (mem.at offset)

/-- An offset lies in an input of the given length. -/
def within (len offset : Word) : Bool := decide (offset.toNat < len.toNat)

/-- The loop may end at an offset: it is the end of the input, or its packet ends the call. -/
def ends (mem : Memory) (len offset : Word) : Bool :=
  offset == len || (within len offset && mem.last offset)

/-- From packet to packet, the length fields lead through the input to its end or to a packet that
ends the call. -/
def framed (mem : Memory) (len : Word) : Bool :=
  Walk.arrivesWithin mem.next (within len) (mem.ends len) (len.toNat + 1) 0

end Memory

variable {φ : Type}

namespace Device

/-- A packet of the custom protocol. -/
def serve (d : Device φ) (driver : FlashDriver φ) (socket : ℕ) (buf : Bytes) : Device φ :=
  let d := d.readHeader buf
  if commandOf buf = Pc2Dev.pcSetAlarmRegion then
    let d := { d with alarmRegion := { d.alarmRegion with select := paraOf buf } }
    if refused buf then d else d.execute driver socket buf (paraOf buf)
  else d.execute driver socket buf (paraOf buf)

end Device

/-! ### Packets one after the other -/

/-- How many bytes of a packet its command reads. -/
def commandReads (command : Word) : ℕ :=
  if command = Pc2Dev.pcLoadRegionData then 1631 + zenithNumber
  else if command = Pc2Dev.pcSetSn then 8 + 16
  else if command = Pc2Dev.pcSetDevType then 8 + 20
  else if command = Pc2Dev.laserPresdo then 8 + 30
  else if command = Pc2Dev.pcRemoteUpdateWrite then 12 + 256
  else 12

/-- A packet of the custom protocol, whose length field counts what follows the first 12 bytes. -/
structure CustomPacket where
  bytes : List Byte
  head : bytes.take 2 = [0x12, 0x34]
  size : bytes.length = 12 + (Pc2Dev.bigEndian (literal bytes) 4).toNat

/-- A well-formed packet: of the custom protocol, or a telegram between STX and ETX. -/
inductive Packet
  | custom (p : CustomPacket)
  | telegram (body : List Byte)

namespace Packet

def bytes : Packet → List Byte
  | custom p => p.bytes
  | telegram body => 0x02 :: (body ++ [0x03])

/-- How many bytes from its first one a packet makes the parser read. -/
def reads : Packet → ℕ
  | custom p => commandReads (commandOf (literal p.bytes))
  | telegram body => body.length + 2

/-- A telegram that no entry of the table answers. -/
def Ignored (t : Tim561) : Packet → Prop
  | custom _ => False
  | telegram body => ∀ i, (t.tim561Index i).text ≠ body

/-- The packets that one call handles as one call for each does: a telegram comes last or is, with
all that follow, an ignored one, and so is all that follows a refused region. -/
def Batchable (t : Tim561) : List Packet → Prop
  | [] => True
  | custom p :: rest =>
    if refused (literal p.bytes) then ∀ q ∈ rest, q.Ignored t else Batchable t rest
  | telegram body :: rest => rest = [] ∨ ∀ q ∈ telegram body :: rest, q.Ignored t

end Packet

/-- The bytes stand in the memory at an offset. -/
def Memory.Holds (mem : Memory) (offset : Word) (bytes : List Byte) : Prop :=
  ∀ i < bytes.length, mem.at offset i = literal bytes i

/-- A packet in the memory of a call of its own. -/
structure Delivery where
  packet : Packet
  memory : Memory
  holds : memory.Holds 0 packet.bytes

def packetsOf (deliveries : List Delivery) : List Packet := deliveries.map Delivery.packet

/-- `pc2dev_parse` once per packet. -/
def oneByOne (board : Board φ) (socket fuel : ℕ) : List Delivery → Device φ → Option (Device φ)
  | [], d => some d
  | p :: rest, d =>
    (pc2devParse board socket p.memory (BitVec.ofNat 32 p.packet.bytes.length) fuel d).bind
      (oneByOne board socket fuel rest)

/-- Behind a packet that is shorter than what its command reads, its own call and the call for all
packets find the same bytes. -/
def SameBehind (mem : Memory) : Word → List Delivery → Prop
  | _, [] => True
  | offset, p :: rest =>
    (∀ i, p.packet.bytes.length ≤ i → i < p.packet.reads → p.memory.at 0 i = mem.at offset i) ∧
      SameBehind mem (offset + BitVec.ofNat 32 p.packet.bytes.length) rest

/-- What a packet can do: the parameters, the regions, the EEPROM, the words for the FPGA and the
replies. -/
structure Effect where
  sysPara : SysPara
  alarmRegion : Region
  eeprom : Eeprom
  fpga : List Word
  sent : List Sent

def Device.effect (d : Device φ) : Effect where
  sysPara := d.nios.sysPara
  alarmRegion := d.alarmRegion
  eeprom := d.eeprom
  fpga := d.fpga
  sent := d.nios.sent

end SingleScan
