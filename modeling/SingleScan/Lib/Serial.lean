import SingleScan.Lib.Bits

/-!
# A clocked serial link

The slave's end of a link with a select line (active low), a clock and a data line. A `Sink` takes a bit
at each fall of the clock, a `Source` shows the next one. What a slave samples while the data line
changes is open.
-/

namespace Serial

open Bits

structure Wires where
  csN : Bool
  clock : Bool
  data : Bool

/-- The clock falls while the slave is selected. -/
def Wires.Falls (before after : Wires) : Prop :=
  after.csN = false ∧ before.clock = true ∧ after.clock = false

instance (before after : Wires) : Decidable (before.Falls after) :=
  inferInstanceAs (Decidable (_ ∧ _ ∧ _))

theorem Wires.not_falls_of_high {before after : Wires} (h : after.clock = true) :
    ¬ before.Falls after :=
  fun hfalls => Bool.noConfusion (h.symm.trans hfalls.2.2)

theorem Wires.not_falls_of_low {before after : Wires} (h : before.clock = false) :
    ¬ before.Falls after :=
  fun hfalls => Bool.noConfusion (h.symm.trans hfalls.2.1)

/-- What a slave samples, by the data line before and after the edge. -/
structure Sampling where
  value : Bool → Bool → Bool
  steady : ∀ b, value b b = b

/-! ### Towards the slave -/

/-- The bits since the select line fell, and the words so far. -/
structure Sink (w : ℕ) where
  bits : List Bool
  words : List (BitVec w)

namespace Sink

variable {w : ℕ}

def empty : Sink w := ⟨[], []⟩

/-- One bit more. What comes behind a full word is ignored. -/
def take (r : Sink w) (b : Bool) : Sink w :=
  if r.bits.length < w then
    { bits := r.bits ++ [b]
      words := if r.bits.length + 1 = w then r.words ++ [toWord w (r.bits ++ [b])] else r.words }
  else r

def edge (sampling : Sampling) (r : Sink w) (before after : Wires) : Sink w :=
  if after.csN then { r with bits := [] }
  else if before.Falls after then r.take (sampling.value before.data after.data)
  else r

/-- `k` bits into the word `x`, behind the words `ws`. -/
def within (x : BitVec w) (k : ℕ) (ws : List (BitVec w)) : Sink w where
  bits := (ofWord x).take k
  words := if k = w then ws ++ [x] else ws

variable {sampling : Sampling} {r : Sink w} {before after : Wires} {x : BitVec w}
  {ws : List (BitVec w)} {k : ℕ}

theorem edge_high (h : after.csN = true) : r.edge sampling before after = ⟨[], r.words⟩ :=
  if_pos h

theorem edge_quiet (hlow : after.csN = false) (h : ¬ before.Falls after) :
    r.edge sampling before after = r := by
  rw [edge, if_neg (hlow ▸ Bool.false_ne_true), if_neg h]

theorem within_zero (hw : 0 < w) : within x 0 ws = ⟨[], ws⟩ := by
  rw [within, List.take_zero, if_neg hw.ne]

theorem within_full : within x w ws = ⟨ofWord x, ws ++ [x]⟩ := by
  rw [within, take_ofWord_self, if_pos rfl]

/-- The next bit of `x` has come in. -/
theorem edge_within (hk : k < w) (h : before.Falls after) (hbit : before.data = x.getMsbD k)
    (hsteady : before.data = after.data) :
    (within x k ws).edge sampling before after = within x (k + 1) ws := by
  have hlength : ((ofWord x).take k).length = k := by
    rw [List.length_take, length_ofWord, Nat.min_eq_left hk.le]
  have hbits : (ofWord x).take k ++ [x.getMsbD k] = (ofWord x).take (k + 1) :=
    (take_ofWord_succ x hk).symm
  rw [edge, if_neg (h.1 ▸ Bool.false_ne_true), if_pos h, ← hsteady, sampling.steady, hbit]
  simp only [take, within, hlength, if_pos hk, hbits, if_neg hk.ne]
  congr 1
  by_cases hlast : k + 1 = w
  · rw [if_pos hlast, if_pos hlast, hlast, take_ofWord_self, toWord_ofWord]
  · rw [if_neg hlast, if_neg hlast]

end Sink

/-! ### From the slave -/

/-- The bits that are left. -/
structure Source where
  bits : List Bool

namespace Source

variable {w : ℕ}

/-- `word` is what the slave holds; it is taken when the select line falls. -/
def edge (d : Source) (before after : Wires) (word : BitVec w) : Source :=
  if before.csN = true ∧ after.csN = false then ⟨ofWord word⟩
  else if before.Falls after then ⟨d.bits.tail⟩
  else d

def data (d : Source) : Bool := d.bits.headD false

variable {d : Source} {before after : Wires} {word x : BitVec w} {k : ℕ}

theorem edge_select (h : before.csN = true) (h' : after.csN = false) :
    d.edge before after word = ⟨(ofWord word).drop 0⟩ :=
  if_pos ⟨h, h'⟩

theorem edge_quiet (h : before.csN = true → after.csN = true) (hfalls : ¬ before.Falls after) :
    d.edge before after word = d := by
  rw [edge, if_neg fun hselect => Bool.noConfusion ((h hselect.1).symm.trans hselect.2), if_neg hfalls]

theorem edge_falls (h : before.csN = false) (hfalls : before.Falls after) :
    (⟨(ofWord x).drop k⟩ : Source).edge before after word = ⟨(ofWord x).drop (k + 1)⟩ := by
  rw [edge, if_neg fun hselect => Bool.noConfusion (h.symm.trans hselect.1), if_pos hfalls,
    List.tail_drop]

theorem data_drop (hk : k < w) : (⟨(ofWord x).drop k⟩ : Source).data = x.getMsbD k := by
  rw [data, drop_ofWord x hk, List.headD_cons]

end Source

end Serial
