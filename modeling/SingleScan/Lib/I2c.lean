import SingleScan.Lib.Bits

/-!
# The two-wire bus

A master with two port pins and one device. The device sees edges only: SDA moving while SCL is high is a
START or a STOP, what SDA is when SCL rises is a bit, and the device changes what it drives when SCL falls.
SDA is pulled up, and the device only ever pulls it down; `strong` says that a high output of the master's
wins against that.
-/

namespace I2c

/-- A device byte by byte. -/
structure Target (σ : Type*) where
  start : σ → σ
  stop : σ → σ
  /-- A byte comes in. A device that does not acknowledge it leaves the bus. -/
  receive : σ → BitVec 8 → Option σ
  /-- The byte that it sends next, if it is its turn. -/
  send : σ → Option (BitVec 8)
  /-- The master has acknowledged the byte. -/
  acked : σ → σ

/-- The device, and how it is wired. -/
structure Wiring (σ : Type*) extends Target σ where
  strong : Bool

/-- How far the device is with a byte. -/
inductive Phase
  /-- It waits for a START. -/
  | away
  | takes (bits : List Bool)
  | acks
  /-- The head is on the wire. -/
  | gives (bits : List Bool)
  | asks (level : Bool)
deriving DecidableEq, Repr

/-- The device pulls SDA down. -/
def Phase.pulls : Phase → Bool
  | .acks => true
  | .gives (bit :: _) => !bit
  | _ => false

/-- The device and the master's pins: `drives` is the direction of SDA, and `level` what its output
register holds. -/
structure Bus (σ : Type*) where
  dev : σ
  phase : Phase
  drives : Bool
  level : Bool
  scl : Bool

variable {σ : Type*} (l : Wiring σ)

/-- After an acknowledge bit. -/
def Target.turn (t : Target σ) (dev : σ) : Phase :=
  match t.send dev with
  | some byte => .gives (Bits.ofWord byte)
  | none => .takes []

namespace Bus

/-- SDA. -/
def sda (b : Bus σ) : Bool :=
  if b.drives then b.level && (!b.phase.pulls || l.strong) else !b.phase.pulls

/-- SCL has risen. -/
def rise (b : Bus σ) : Bus σ :=
  match b.phase with
  | .takes bits => { b with phase := .takes (bits ++ [b.sda l]) }
  | .asks _ => { b with phase := .asks (b.sda l) }
  | .away | .acks | .gives _ => b

/-- SCL has fallen. -/
def fall (b : Bus σ) : Bus σ :=
  match b.phase with
  | .away => b
  | .takes bits =>
      if bits.length = 8 then
        match l.receive b.dev (Bits.toWord 8 bits) with
        | some dev => { b with dev := dev, phase := .acks }
        | none => { b with phase := .away }
      else b
  | .acks => { b with phase := l.turn b.dev }
  | .gives (_ :: bit :: bits) => { b with phase := .gives (bit :: bits) }
  | .gives _ => { b with phase := .asks true }
  | .asks true => { b with phase := .away }
  | .asks false => { b with dev := l.acked b.dev, phase := l.turn (l.acked b.dev) }

/-- SDA, which was `old`, may have moved. -/
def settle (old : Bool) (b : Bus σ) : Bus σ :=
  if b.scl then
    if old && !b.sda l then { b with dev := l.start b.dev, phase := .takes [] }
    else if !old && b.sda l then { b with dev := l.stop b.dev, phase := .away }
    else b
  else b

/-- The master writes the output register of SCL. -/
def clock (level : Bool) (b : Bus σ) : Bus σ :=
  if level = b.scl then b
  else if level then rise l { b with scl := true } else fall l { b with scl := false }

/-- The master writes the output register of SDA. -/
def data (level : Bool) (b : Bus σ) : Bus σ := settle l (b.sda l) { b with level := level }

/-- The master writes the direction of SDA. -/
def direction (drives : Bool) (b : Bus σ) : Bus σ := settle l (b.sda l) { b with drives := drives }

/-- Both wires are high, and the device waits for a START. -/
structure Free (b : Bus σ) : Prop where
  phase : b.phase = .away
  drives : b.drives = true
  level : b.level = true
  scl : b.scl = true

theorem Free.eq {b : Bus σ} (h : b.Free) : b = ⟨b.dev, .away, true, true, true⟩ := by
  obtain ⟨dev, phase, drives, level, scl⟩ := b
  obtain ⟨rfl, rfl, rfl, rfl⟩ := h
  rfl

/-! ### The master's moves

The pins stand in the order `drives`, `level`, `scl`. -/

variable {l} {dev dev' : σ} {drives level scl : Bool} {bits : List Bool} {bit : Bool}
  {phase : Phase}

/-- SDA falls while SCL is high. -/
theorem data_start (hpulls : phase.pulls = false) :
    data l false ⟨dev, phase, true, true, true⟩ = ⟨l.start dev, .takes [], true, false, true⟩ := by
  have hsda : sda l ⟨dev, phase, true, true, true⟩ = true := by simp [sda, hpulls]
  rw [data, hsda]
  rfl

/-- SDA rises while SCL is high. -/
theorem data_stop (hfree : phase.pulls = false ∨ l.strong = true) :
    data l true ⟨dev, phase, true, false, true⟩ = ⟨l.stop dev, .away, true, true, true⟩ := by
  have hsda : sda l ⟨dev, phase, true, true, true⟩ = true := by simpa [sda] using hfree
  show settle l false _ = _
  rw [settle, hsda]
  rfl

/-- The device holds SDA down, and nothing happens. -/
theorem data_held (hpulls : phase.pulls = true) (hweak : l.strong = false) :
    data l true ⟨dev, phase, true, false, true⟩ = ⟨dev, phase, true, true, true⟩ := by
  have hsda : sda l ⟨dev, phase, true, true, true⟩ = false := by simp [sda, hpulls, hweak]
  show settle l false _ = _
  rw [settle, hsda]
  rfl

/-- SCL falls before a bit that is not the ninth. -/
theorem clock_takes (hlen : bits.length ≠ 8) :
    clock l false ⟨dev, .takes bits, drives, level, scl⟩ = ⟨dev, .takes bits, drives, level, false⟩ := by
  cases scl with
  | false => rfl
  | true => exact if_neg hlen

/-- The master sends a bit. -/
theorem bit_sent (hlen : bits.length ≠ 8) :
    clock l true (data l bit (clock l false ⟨dev, .takes bits, true, level, scl⟩)) =
      ⟨dev, .takes (bits ++ [bit]), true, bit, true⟩ := by
  rw [clock_takes hlen]
  cases bit <;> rfl

/-- The byte is complete, and the device takes it. -/
theorem clock_taken {byte : BitVec 8} (hreceive : l.receive dev byte = some dev') :
    clock l false ⟨dev, .takes (Bits.ofWord byte), drives, level, true⟩ =
      ⟨dev', .acks, drives, level, false⟩ := by
  show fall l ⟨dev, .takes (Bits.ofWord byte), drives, level, false⟩ = _
  simp only [fall, Bits.length_ofWord, if_true, Bits.toWord_ofWord, hreceive]

/-- A bit of the device's is on the wire. -/
theorem sda_gives : sda l ⟨dev, .gives (bit :: bits), false, level, scl⟩ = bit := Bool.not_not bit

end Bus

end I2c
