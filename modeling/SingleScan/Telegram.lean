import SingleScan.Nios

/-!
# The scan telegram

`sick_pos_packet` of `sick_protocol.c`, and the part of `main` that sends the telegram in pieces of
1460 bytes and a status packet behind it.
-/

namespace SingleScan

/-- The characters of a C string. -/
def ascii (text : String) : List Byte := text.toList.map fun c => BitVec.ofNat 8 c.toNat

def frameStart : List Byte :=
  ascii ("sSI 5A 1 1 103B7B4 0 0 9D9 9DD B3E30A9 B3E44BC 0 0 1 0 0 5DC A2 0 2 DIST1 " ++
    "3F800000 00000000 FFF92230 D05 32B")

/-- `RSSI_Field_start`. -/
def rssiFieldStart : List Byte := ascii " RSSI1 3F800000 00000000 FFF92230 D05 32B"

/-- `RSSI_Field_end`. -/
def rssiFieldEnd : List Byte := ascii " 0 0 0 0 0 0"

/-- The size of `send_buffer`. -/
def sendBufferSize : ℕ := 8448

/-- `strlen`, of a string in `send_buffer`. -/
def strlen (buf : Bytes) : ℕ :=
  ((List.range sendBufferSize).find? fun i => buf i == 0).getD sendBufferSize

namespace Nios

/-- `sick_pos_packet`. -/
def sickPosPacket (s : Nios) : Nios :=
  let data := s.cycleData
  let distance := (List.range data.distanceLen.toNat).map data.distanceData
  let gray := (List.range data.grayLen.toNat).map data.grayData
  let cleared : Bytes := fun k => if k < sendBufferSize then 0 else s.sendBuffer k
  { s with
    sendBuffer := memcpy cleared 0
      (0x02 :: (frameStart ++ distance ++ rssiFieldStart ++ gray ++ rssiFieldEnd ++ [0x03])) }

/-- A piece of `send_buffer`, to a socket. -/
def sendFrom (s : Nios) (socket offset len : ℕ) : Nios :=
  { s with sent := s.sent ++ [⟨socket, (List.range len).map fun i => s.sendBuffer (offset + i)⟩] }

/-- The status packet with the alarms of the three regions. -/
def sendRegionStatus (s : Nios) : Nios :=
  let s := { s with
    sendBuffer := memcpy s.sendBuffer 0
      [0x12, 0x34, 0xc1, 0x01, 0, 0, 0, 4, 0, 0, 0, s.sysWarn.regionAlarm.setWidth 8,
        0xee, 0xee, 0xee, 0xee] }
  (s.send 0 16).send 1 16

/-- The loop that sends the telegram, from `offset` on, with some turns to go. -/
def sendPieces : ℕ → ℕ → Nios → Nios
  | 0, _, s => s
  | turns + 1, offset, s =>
    let len := strlen s.sendBuffer
    if 1460 ≤ len - offset then
      sendPieces turns (offset + 1460) ((s.sendFrom 0 offset 1460).sendFrom 1 offset 1460)
    else if 0 < len - offset then
      ((s.sendFrom 0 offset (len - offset)).sendFrom 1 offset (len - offset)).sendRegionStatus
    else s

/-- The distances of a finished frame go out. The buffer holds fewer than six pieces. -/
def publish (s : Nios) : Nios :=
  if s.cycleData.posFinish then
    let s := { s with cycleData := { s.cycleData with posFinish := false } }
    s.sickPosPacket.sendPieces 6 0
  else s

end Nios

end SingleScan
