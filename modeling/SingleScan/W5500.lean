import SingleScan.SysPara
import SingleScan.Lib.FreeRing
import SingleScan.Lib.Interleave

/-!
# The network chip

A TCP socket of the W5500 as its data sheet describes it, and the driver of `w5500.c` and `socket.c` over
its registers. The chip goes on by itself between two accesses of the driver: it takes commands, sends
bytes, and stores bytes that arrive. The SPI transfers below an access are left out.
-/

namespace SingleScan

namespace W5500

open Interleave

/-! ### The chip -/

/-- A buffer of a socket; the pointers into it have 16 bits. -/
structure Buffer where
  size : ℕ
  cell : ℕ → Byte
  divides : size ∣ 2 ^ 16
  small : size < 2 ^ 16

namespace Buffer

variable (m : Buffer)

def get (pointer : BitVec 16) : Byte := m.cell (pointer.toNat % m.size)

/-- A burst of writes; the chip counts the address on. -/
def put (pointer : BitVec 16) (data : List Byte) : Buffer :=
  { m with cell := Ring.put m.cell m.size pointer.toNat data }

/-- The bytes from a pointer on. -/
def bytes (pointer : BitVec 16) (n : ℕ) : List Byte := Ring.cells m.cell m.size pointer.toNat n

end Buffer

/-- The commands of `Sn_CR` that the driver gives to an open socket. -/
inductive Command
  | send | recv | close
deriving DecidableEq, Repr

/-- The transmitting half: `rd` and `wr` are `Sn_TX_RD` and `Sn_TX_WR`. -/
structure Tx where
  mem : Buffer
  rd : BitVec 16
  wr : BitVec 16
  /-- Up to where the last `SEND` goes. -/
  stop : BitVec 16
  sending : Bool
  /-- `Sn_IR_SEND_OK`. -/
  sendOk : Bool
  /-- The bytes that have gone out. -/
  wire : List Byte

/-- The receiving half: `rd` and `wr` are `Sn_RX_RD` and `Sn_RX_WR`. -/
structure Rx where
  mem : Buffer
  rd : BitVec 16
  /-- `Sn_RX_RD` at the last `RECV`. -/
  base : BitVec 16
  wr : BitVec 16
  /-- The bytes that have come in. -/
  arrived : List Byte

structure Sock where
  sr : Byte
  cr : Option Command
  tx : Tx
  rx : Rx

/-- `SOCK_CLOSED`. -/
def sockClosed : Byte := 0x00

/-- `SOCK_ESTABLISHED`. -/
def sockEstablished : Byte := 0x17

/-- `SOCK_CLOSE_WAIT`. -/
def sockCloseWait : Byte := 0x1c

/-- `send` goes on in these states only. -/
def Sock.connected (s : Sock) : Bool := s.sr == sockEstablished || s.sr == sockCloseWait

/-- `Sn_TX_FSR`. -/
def Sock.txFsr (s : Sock) : BitVec 16 := BitVec.ofNat 16 (s.tx.mem.size - (s.tx.wr - s.tx.rd).toNat)

/-- `Sn_RX_RSR`. -/
def Sock.rxRsr (s : Sock) : BitVec 16 := s.rx.wr - s.rx.base

/-- What happens without the driver. -/
inductive Event
  | execute
  | transmit
  | arrive (data : List Byte)
  | status (sr : Byte)

/-- A byte goes out, or the last one has. -/
def Tx.transmit (t : Tx) : Tx :=
  if t.sending then
    if t.rd = t.stop then { t with sending := false, sendOk := true }
    else { t with wire := t.wire ++ [t.mem.get t.rd], rd := t.rd + 1 }
  else t

/-- Bytes come in if there is room for them. -/
def Rx.arrive (r : Rx) (data : List Byte) : Rx :=
  if (r.wr - r.base).toNat + data.length ≤ r.mem.size then
    { r with
      mem := r.mem.put r.wr data
      wr := r.wr + BitVec.ofNat 16 data.length
      arrived := r.arrived ++ data }
  else r

/-- The chip takes the command. -/
def Sock.execute (s : Sock) : Sock :=
  match s.cr with
  | none => s
  | some .send =>
      if s.connected then { s with cr := none, tx := { s.tx with stop := s.tx.wr, sending := true } }
      else { s with cr := none }
  | some .recv => { s with cr := none, rx := { s.rx with base := s.rx.rd } }
  | some .close => { s with cr := none, sr := sockClosed, tx := { s.tx with sending := false } }

/-- A connection that is lost does not come back by itself. -/
def Sock.status (s : Sock) (sr : Byte) : Sock :=
  { s with sr := if s.connected then sr else s.sr }

def Sock.on (s : Sock) : Event → Sock
  | .execute => s.execute
  | .transmit => { s with tx := s.tx.transmit }
  | .arrive data => { s with rx := s.rx.arrive data }
  | .status sr => s.status sr

/-! ### The registers of two bytes -/

abbrev Chip := Party Sock Event

/-- The chip, with what it does and when. -/
def chip (env : ℕ → List Event) : Chip := ⟨Sock.on, env⟩

variable (p : Chip)

/-- `IINCHIP_READ` of the upper and of the lower byte. -/
def readWord (f : Sock → BitVec 16) (w : World Sock) : BitVec 16 × World Sock :=
  let high := p.read (fun s => (f s).extractLsb' 8 8) w
  let low := p.read (fun s => (f s).setWidth 8) high.2
  (high.1 ++ low.1, low.2)

/-- The loop of `getSn_TX_FSR` and `getSn_RX_RSR` on `val`; a level of zero is not read twice. -/
def getSn (f : Sock → BitVec 16) : ℕ → BitVec 16 → World Sock → Option (BitVec 16 × World Sock)
  | 0, _, _ => none
  | fuel + 1, val, w =>
      let val1 := readWord p f w
      if val1.1 ≠ 0 then
        let again := readWord p f val1.2
        if again.1 = val1.1 then some again else getSn f fuel again.1 again.2
      else if val = 0 then some (0, val1.2)
      else getSn f fuel val val1.2

/-- `getSn_TX_FSR`. -/
def getSnTxFsr (fuel : ℕ) (w : World Sock) : Option (BitVec 16 × World Sock) :=
  getSn p Sock.txFsr fuel 0 w

/-- `getSn_RX_RSR`. -/
def getSnRxRsr (fuel : ℕ) (w : World Sock) : Option (BitVec 16 × World Sock) :=
  getSn p Sock.rxRsr fuel 0 w

/-- `IINCHIP_WRITE` of the upper and of the lower byte. -/
def writeWord (set : Sock → (BitVec 16 → BitVec 16) → Sock) (x : BitVec 16) (w : World Sock) :
    World Sock :=
  let w := p.write (fun s => set s fun old => x.extractLsb' 8 8 ++ old.setWidth 8) w
  p.write (fun s => set s fun old => old.extractLsb' 8 8 ++ x.setWidth 8) w

/-- `IINCHIP_WRITE` to `Sn_CR`, and the wait until the chip has taken the command. -/
def command (c : Command) (fuel : ℕ) (w : World Sock) : Option (World Sock) :=
  p.wait (fun s => s.cr.isSome) fuel (p.write (fun s => { s with cr := some c }) w)

/-! ### Sending -/

def Sock.setTxWr (s : Sock) (f : BitVec 16 → BitVec 16) : Sock :=
  { s with tx := { s.tx with wr := f s.tx.wr } }

/-- `wiz_write_buf`: a byte for each transfer. -/
def wizWriteBuf (pointer : BitVec 16) : List Byte → World Sock → World Sock
  | [], w => w
  | byte :: buf, w =>
      wizWriteBuf (pointer + 1) buf
        (p.write (fun s => { s with tx := { s.tx with mem := s.tx.mem.put pointer [byte] } }) w)

/-- `send_data_processing`. -/
def sendDataProcessing (data : List Byte) (w : World Sock) : World Sock :=
  if data.length = 0 then w
  else
    let ptr := readWord p (fun s => s.tx.wr) w
    let w := wizWriteBuf p ptr.1 data ptr.2
    writeWord p Sock.setTxWr (ptr.1 + BitVec.ofNat 16 data.length) w

/-- `close_socket`. -/
def closeSocket (fuel : ℕ) (w : World Sock) : Option (World Sock) :=
  (command p .close fuel w).map
    (p.write fun s => { s with tx := { s.tx with sendOk := false } })

/-- The first loop of `send`: it waits for room. -/
def waitFree (fuel : ℕ) : ℕ → ℕ → World Sock → Option (ℕ × World Sock)
  | 0, _, _ => none
  | rounds + 1, ret, w =>
      (getSnTxFsr p fuel w).bind fun freesize =>
        let status := p.read Sock.connected freesize.2
        if !status.1 then some (0, status.2)
        else if freesize.1.toNat < ret then waitFree fuel rounds ret status.2
        else some (ret, status.2)

/-- The last loop of `send`: whether the bytes have gone out. -/
def waitSent : ℕ → World Sock → Option (Bool × World Sock)
  | 0, _ => none
  | rounds + 1, w =>
      let ir := p.read (fun s => s.tx.sendOk) w
      if ir.1 then some (true, ir.2)
      else
        let status := p.read Sock.connected ir.2
        if !status.1 then some (false, status.2) else waitSent rounds status.2

/-- `send`. -/
def send (fuel : ℕ) (buf : List Byte) (w : World Sock) : Option (ℕ × World Sock) :=
  (waitFree p fuel fuel (min buf.length w.dev.tx.mem.size) w).bind fun (ret, w) =>
    (command p .send fuel (sendDataProcessing p (buf.take ret) w)).bind fun w =>
      (waitSent p fuel w).bind fun (ok, w) =>
        let clear := p.write fun s => { s with tx := { s.tx with sendOk := false } }
        if ok then some (ret, clear (clear w))
        else (closeSocket p fuel w).map fun w => (0, w)

/-! ### Receiving -/

def Sock.setRxRd (s : Sock) (f : BitVec 16 → BitVec 16) : Sock :=
  { s with rx := { s.rx with rd := f s.rx.rd } }

/-- `wiz_read_buf`: a byte for each transfer. -/
def wizReadBuf (pointer : BitVec 16) : ℕ → World Sock → List Byte × World Sock
  | 0, w => ([], w)
  | len + 1, w =>
      let byte := p.read (fun s => s.rx.mem.get pointer) w
      let rest := wizReadBuf (pointer + 1) len byte.2
      (byte.1 :: rest.1, rest.2)

/-- `recv_data_processing`. -/
def recvDataProcessing (len : ℕ) (w : World Sock) : List Byte × World Sock :=
  if len = 0 then ([], w)
  else
    let ptr := readWord p (fun s => s.rx.rd) w
    let data := wizReadBuf p ptr.1 len ptr.2
    (data.1, writeWord p Sock.setRxRd (ptr.1 + BitVec.ofNat 16 len) data.2)

/-- `recv`. -/
def recv (fuel len : ℕ) (w : World Sock) : Option (List Byte × World Sock) :=
  if 0 < len then
    let data := recvDataProcessing p len w
    (command p .recv fuel data.2).map fun w => (data.1, w)
  else some ([], w)

/-- The case `SOCK_ESTABLISHED` of `tim561_run`: what is handed to `pc2dev_parse`. -/
def poll (fuel : ℕ) (w : World Sock) : Option (List Byte × World Sock) :=
  let status := p.read (fun s => s.sr) w
  if status.1 = sockEstablished then
    (getSnRxRsr p fuel status.2).bind fun len => recv p fuel len.1.toNat len.2
  else some ([], status.2)

/-! ### A connection -/

inductive Call
  | send (buf : List Byte)
  | poll

/-- What has gone through a connection: the bytes that were handed over, those that `send` was to send,
and whether it has sent them. -/
structure Session where
  world : World Sock
  received : List Byte
  offered : List Byte
  alive : Bool

/-- A call; none is made once `send` has failed. -/
def Session.call (fuel : ℕ) (x : Session) (c : Call) : Option Session :=
  if x.alive then
    match c with
    | .poll => (poll p fuel x.world).map fun r => { x with world := r.2, received := x.received ++ r.1 }
    | .send buf =>
        (send p fuel buf x.world).map fun r =>
          { x with
            world := r.2
            offered := x.offered ++ buf.take x.world.dev.tx.mem.size
            alive := r.1 ≠ 0 }
  else some x

def Session.run (fuel : ℕ) : Session → List Call → Option Session
  | x, [] => some x
  | x, c :: calls => (x.call p fuel c).bind fun x => Session.run fuel x calls

/-- The socket after `OPEN`, with a peer. -/
structure Sock.Fresh (s : Sock) : Prop where
  cr : s.cr = none
  idle : s.tx.sending = false ∧ s.tx.sendOk = false
  tx : s.tx.wr = s.tx.rd
  wire : s.tx.wire = []
  rx : s.rx.rd = s.rx.base ∧ s.rx.wr = s.rx.base
  arrived : s.rx.arrived = []

def Session.start (s : Sock) : Session := ⟨⟨s, 0⟩, [], [], true⟩

/-- `buffer` of `bsp.c`, which `recv` writes to. -/
def bufferSize : ℕ := 2048

end W5500

end SingleScan
