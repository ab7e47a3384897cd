import SingleScan.Proof.W5500

/-!
# What goes out through the network chip

While `SEND` is under way, what has gone out and what is still in the buffer make up the bytes that `send` was
given (`Tx.Part`), so that they go out in order, or in part if the connection is lost.
-/

namespace SingleScan

namespace W5500

open Interleave

variable {p : Chip} {w w' : World Sock}

/-- Of some data a part has gone out behind what was out before, and the rest is in the buffer. -/
structure Tx.Part (t : Tx) (before sent rest : List Byte) : Prop where
  wire : t.wire = before ++ sent
  held : t.mem.bytes t.rd rest.length = rest
  wr : t.wr = t.rd + BitVec.ofNat 16 rest.length
  fits : rest.length ≤ t.mem.size
  stop : t.sending = true → t.stop = t.wr
  finished : t.sendOk = true → rest = [] ∧ t.sending = false

/-- Nothing is going out. -/
structure Tx.Quiet (t : Tx) : Prop where
  sending : t.sending = false
  sendOk : t.sendOk = false
  empty : t.wr = t.rd

/-- One byte more. -/
theorem Tx.Part.transmit {t : Tx} {before sent rest : List Byte} (h : t.Part before sent rest) :
    ∃ sent' rest', sent' ++ rest' = sent ++ rest ∧ t.transmit.Part before sent' rest' := by
  unfold Tx.transmit
  split_ifs with hsending hend
  · -- the last byte is out
    have hzero : rest.length = 0 := by
      have hwr := h.wr
      rw [← h.stop hsending, ← hend] at hwr
      have hcount : BitVec.ofNat 16 rest.length = 0 := by
        simpa using (BitVec.sub_eq_iff_eq_add.mpr ((BitVec.add_comm _ _).trans hwr.symm).symm).symm
      have hsmall : rest.length < 2 ^ 16 := h.fits.trans_lt t.mem.small
      have := congrArg BitVec.toNat hcount
      rwa [BitVec.toNat_ofNat, Nat.mod_eq_of_lt hsmall] at this
    have hnil : rest = [] := List.length_eq_zero_iff.mp hzero
    exact ⟨sent, rest, rfl, h.wire, h.held, h.wr, h.fits, Bool.noConfusion, fun _ => ⟨hnil, rfl⟩⟩
  · cases rest with
    | nil =>
        have hwr := h.wr
        rw [List.length_nil, BitVec.add_zero] at hwr
        exact absurd ((h.stop hsending).trans hwr).symm hend
    | cons byte rest =>
        have hrest := h.held
        rw [List.length_cons, Buffer.bytes_succ, List.cons.injEq] at hrest
        have hwr : t.wr = t.rd + 1 + BitVec.ofNat 16 rest.length := by
          rw [h.wr, List.length_cons, Nat.add_comm, BitVec.ofNat_add, ← BitVec.add_assoc]
          rfl
        have hok : t.sendOk = false := by
          rw [Bool.eq_false_iff]
          exact fun hok => List.cons_ne_nil byte rest (h.finished hok).1
        refine ⟨sent ++ [byte], rest, List.append_assoc _ _ _, ?_, hrest.2, hwr,
          (Nat.le_succ _).trans h.fits, h.stop, ?_⟩
        · show t.wire ++ [t.mem.get t.rd] = before ++ (sent ++ [byte])
          rw [h.wire, hrest.1, List.append_assoc]
        · intro htrue
          exact absurd htrue (Bool.eq_false_iff.mp hok)
  · exact ⟨sent, rest, rfl, h⟩

theorem Tx.size_transmit (t : Tx) : t.transmit.mem.size = t.mem.size := by
  unfold Tx.transmit
  split_ifs <;> rfl

/-- `data` is on its way behind `before`. -/
structure Sock.Sends (s : Sock) (size : ℕ) (before data : List Byte) : Prop where
  part : ∃ sent rest, sent ++ rest = data ∧ s.tx.Part before sent rest
  ready : s.cr = some .send → s.tx.sending = false ∧ s.tx.sendOk = false
  size : s.tx.mem.size = size

theorem Tx.Part.stopped {t : Tx} {before sent rest : List Byte} (h : t.Part before sent rest) :
    { t with sending := false }.Part before sent rest :=
  ⟨h.wire, h.held, h.wr, h.fits, Bool.noConfusion, fun hok => ⟨(h.finished hok).1, rfl⟩⟩

theorem Tx.Part.cleared {t : Tx} {before sent rest : List Byte} (h : t.Part before sent rest) :
    { t with sendOk := false }.Part before sent rest :=
  ⟨h.wire, h.held, h.wr, h.fits, h.stop, Bool.noConfusion⟩

/-- Whatever the chip does, it sends on. -/
theorem Sock.Sends.on {s : Sock} {size : ℕ} {before data : List Byte} (h : s.Sends size before data)
    (e : Event) : (s.on e).Sends size before data := by
  obtain ⟨⟨sent, rest, hdata, hpart⟩, hready, hsize⟩ := h
  cases e with
  | execute =>
      show s.execute.Sends size before data
      unfold Sock.execute
      split
      · exact ⟨⟨sent, rest, hdata, hpart⟩, hready, hsize⟩
      · rename_i hsend
        split_ifs
        · refine ⟨⟨sent, rest, hdata, hpart.wire, hpart.held, hpart.wr, hpart.fits, fun _ => rfl, ?_⟩,
            nofun, hsize⟩
          intro hok
          exact absurd hok (Bool.eq_false_iff.mp (hready hsend).2)
        · exact ⟨⟨sent, rest, hdata, hpart⟩, nofun, hsize⟩
      · exact ⟨⟨sent, rest, hdata, hpart⟩, nofun, hsize⟩
      · exact ⟨⟨sent, rest, hdata, hpart.stopped⟩, nofun, hsize⟩
  | transmit =>
      obtain ⟨sent', rest', hsame, hpart'⟩ := hpart.transmit
      refine ⟨⟨sent', rest', hsame.trans hdata, hpart'⟩, ?_, (Tx.size_transmit s.tx).trans hsize⟩
      intro hsend
      have hidle : s.tx.transmit = s.tx := if_neg (Bool.eq_false_iff.mp (hready hsend).1)
      show s.tx.transmit.sending = false ∧ s.tx.transmit.sendOk = false
      rw [hidle]
      exact hready hsend
  | arrive more => exact ⟨⟨sent, rest, hdata, hpart⟩, hready, hsize⟩
  | status sr => exact ⟨⟨sent, rest, hdata, hpart⟩, hready, hsize⟩

theorem Sock.cr_on {s : Sock} (h : s.cr = none) (e : Event) : (s.on e).cr = none := by
  cases e with
  | execute =>
      show s.execute.cr = none
      rw [Sock.execute, h]
      exact h
  | transmit => exact h
  | arrive more => exact h
  | status sr => exact h

/-- The transmitting half is `t`, and stays so. -/
def Sock.Still (s : Sock) (t : Tx) : Prop := s.tx = t ∧ s.cr ≠ some .send

theorem Sock.Still.on {s : Sock} {t : Tx} (ht : t.sending = false) (h : s.Still t) (e : Event) :
    (s.on e).Still t := by
  obtain ⟨rfl, hcr⟩ := h
  have hidle : s.tx.transmit = s.tx := if_neg (Bool.eq_false_iff.mp ht)
  cases e with
  | execute =>
      show s.execute.Still s.tx
      unfold Sock.execute
      split
      · exact ⟨rfl, hcr⟩
      · rename_i hsend
        exact absurd hsend hcr
      · exact ⟨rfl, nofun⟩
      · refine ⟨?_, nofun⟩
        show { s.tx with sending := false } = s.tx
        rw [← ht]
  | transmit => exact ⟨hidle, hcr⟩
  | arrive more => exact ⟨rfl, hcr⟩
  | status sr => exact ⟨rfl, hcr⟩

section Sending

variable {env : ℕ → List Event} {t : Tx} {data : List Byte} {fuel : ℕ} {ret : ℕ × World Sock}

theorem turn_still (ht : t.sending = false) (h : w.dev.Still t) : ((chip env).turn w).dev.Still t :=
  Party.turn_inv (p := chip env) (I := fun s => s.Still t) (fun s e hs => hs.on (s := s) ht e) h

/-- The bytes go behind the pointer. -/
theorem wizWriteBuf_still {pointer : BitVec 16} (ht : t.sending = false) (h : w.dev.Still t) :
    (wizWriteBuf (chip env) pointer data w).dev.Still { t with mem := t.mem.put pointer data } := by
  induction data generalizing pointer w t with
  | nil => exact h
  | cons byte data ih =>
      have hnext : (Party.write (chip env)
          (fun s => { s with tx := { s.tx with mem := s.tx.mem.put pointer [byte] } }) w).dev.Still
            { t with mem := t.mem.put pointer [byte] } := by
        obtain ⟨rfl, hcr⟩ : ((chip env).turn w).dev.Still t := turn_still ht h
        exact ⟨rfl, hcr⟩
      have hrest : (wizWriteBuf (chip env) (pointer + 1) data _).dev.Still
          { t with mem := (t.mem.put pointer [byte]).put (pointer + 1) data } :=
        ih (t := { t with mem := t.mem.put pointer [byte] }) ht hnext
      rw [Buffer.put_cons] at hrest
      exact hrest

theorem writeWord_still {x : BitVec 16} (ht : t.sending = false) (h : w.dev.Still t) :
    (writeWord (chip env) Sock.setTxWr x w).dev.Still { t with wr := x } := by
  obtain ⟨hfirst, hcr⟩ : ((chip env).turn w).dev.Still t := turn_still ht h
  have hhigh : (Party.write (chip env)
      (fun s => s.setTxWr fun old => x.extractLsb' 8 8 ++ old.setWidth 8) w).dev.Still
        { t with wr := x.extractLsb' 8 8 ++ t.wr.setWidth 8 } := by
    subst hfirst
    exact ⟨rfl, hcr⟩
  obtain ⟨hsecond, hcr'⟩ : ((chip env).turn _).dev.Still _ :=
    turn_still (t := { t with wr := x.extractLsb' 8 8 ++ t.wr.setWidth 8 }) ht hhigh
  refine ⟨?_, hcr'⟩
  show ((Party.turn (chip env) _).dev.setTxWr _).tx = _
  rw [Sock.setTxWr, hsecond]
  dsimp only
  rw [Bits.extractLsb'_high, word_halves]

/-- `send_data_processing` puts the bytes into an empty buffer. -/
theorem sendDataProcessing_still (hquiet : t.Quiet) (h : w.dev.Still t) :
    (sendDataProcessing (chip env) data w).dev.Still
      { t with mem := t.mem.put t.wr data, wr := t.wr + BitVec.ofNat 16 data.length } := by
  have ht := hquiet.sending
  have hon (s : Sock) (e : Event) (hs : s.Still t) : (s.on e).Still t := hs.on ht e
  unfold sendDataProcessing
  split_ifs with hempty
  · obtain rfl := List.length_eq_zero_iff.mp hempty
    rw [List.length_nil, BitVec.add_zero]
    exact h
  · have hptr : (readWord (chip env) (fun s => s.tx.wr) w).1 = t.wr :=
      readWord_const hon (fun s hs => congrArg Tx.wr hs.1) h
    dsimp only
    rw [hptr]
    have hbuf : (wizWriteBuf (chip env) t.wr data _).dev.Still { t with mem := t.mem.put t.wr data } :=
      wizWriteBuf_still ht (readWord_inv (p := chip env) (f := fun s => s.tx.wr) (I := fun s => s.Still t) hon h)
    exact writeWord_still (t := { t with mem := t.mem.put t.wr data }) ht hbuf

/-- The bytes in the buffer are still to be sent. -/
theorem part_loaded (hquiet : t.Quiet) (hfits : data.length ≤ t.mem.size) :
    Tx.Part { t with mem := t.mem.put t.wr data, wr := t.wr + BitVec.ofNat 16 data.length } t.wire []
      data where
  wire := (List.append_nil _).symm
  held := by
    show (t.mem.put t.wr data).bytes t.rd data.length = data
    rw [hquiet.empty]
    exact Buffer.bytes_put_self hfits
  wr := by
    show t.wr + BitVec.ofNat 16 data.length = t.rd + BitVec.ofNat 16 data.length
    rw [hquiet.empty]
  fits := hfits
  stop hsending := absurd hsending (Bool.eq_false_iff.mp hquiet.sending)
  finished hok := absurd hok (Bool.eq_false_iff.mp hquiet.sendOk)

/-- From the command to its end: the bytes go out, or the connection is lost on the way. -/
theorem sent_spec (hquiet : t.Quiet) (hfits : data.length ≤ t.mem.size) {w₂ : World Sock}
    {ok : Bool × World Sock} (h : w.dev.Still t)
    (hcommand : command (chip env) .send fuel (sendDataProcessing (chip env) data w) = some w₂)
    (hsent : waitSent (chip env) fuel w₂ = some ok) :
    ok.2.dev.Sends t.mem.size t.wire data ∧ ok.2.dev.cr = none ∧
      (ok.1 = true → ok.2.dev.tx.sendOk = true) := by
  have hloaded : (sendDataProcessing (chip env) data w).dev.Still _ := sendDataProcessing_still hquiet h
  have hgiven : ((chip env).write (fun s => { s with cr := some .send })
      (sendDataProcessing (chip env) data w)).dev.Sends t.mem.size t.wire data := by
    obtain ⟨htx, hcr⟩ : ((chip env).turn (sendDataProcessing (chip env) data w)).dev.Still _ :=
      turn_still (t := { t with mem := t.mem.put t.wr data, wr := t.wr + BitVec.ofNat 16 data.length })
        hquiet.sending hloaded
    refine ⟨⟨[], data, rfl, ?_⟩, fun _ => ?_, ?_⟩
    · show Tx.Part ((chip env).turn _).dev.tx _ _ _
      rw [htx]
      exact part_loaded hquiet hfits
    · show ((chip env).turn _).dev.tx.sending = false ∧ ((chip env).turn _).dev.tx.sendOk = false
      rw [htx]
      exact ⟨hquiet.sending, hquiet.sendOk⟩
    · show ((chip env).turn _).dev.tx.mem.size = _
      rw [htx]
      rfl
  obtain ⟨htaken, hcr⟩ := Party.wait_inv (p := chip env)
    (I := fun s => s.Sends t.mem.size t.wire data) (fun s e hs => hs.on e) hgiven hcommand
  have hnone : w₂.dev.cr = none := Option.isNone_iff_eq_none.mp (Option.isSome_eq_false_iff.mp hcr)
  obtain ⟨⟨hsends, hcr'⟩, hok⟩ := waitSent_inv (p := chip env)
    (I := fun s => s.Sends t.mem.size t.wire data ∧ s.cr = none)
    (fun s e hs => ⟨hs.1.on e, Sock.cr_on hs.2 e⟩) ⟨htaken, hnone⟩ hsent
  exact ⟨hsends, hcr', hok⟩

/-- The bytes are out, and `SEND_OK` is cleared. -/
theorem clear_spec {size : ℕ} {before : List Byte} (h : w.dev.Sends size before data)
    (hcr : w.dev.cr = none) (hok : w.dev.tx.sendOk = true) :
    ∃ t', t'.Quiet ∧ t'.wire = before ++ data ∧
      ((chip env).write (fun s => { s with tx := { s.tx with sendOk := false } })
        ((chip env).write (fun s => { s with tx := { s.tx with sendOk := false } }) w)).dev.tx = t' := by
  obtain ⟨⟨sent, rest, hdata, hpart⟩, hready, hsize⟩ := h
  obtain ⟨rfl, hsending⟩ := hpart.finished hok
  rw [List.append_nil] at hdata
  have hempty : w.dev.tx.wr = w.dev.tx.rd := hpart.wr.trans (BitVec.add_zero _)
  have hwire : w.dev.tx.wire = before ++ data := hdata ▸ hpart.wire
  have hstart : w.dev.Still w.dev.tx := ⟨rfl, by rw [hcr]; nofun⟩
  have hclear {w : World Sock} {t : Tx} (ht : t.sending = false) (hw : w.dev.Still t) :
      ((chip env).write (fun s => { s with tx := { s.tx with sendOk := false } }) w).dev.Still
        { t with sendOk := false } := by
    obtain ⟨rfl, hcr⟩ : ((chip env).turn w).dev.Still t := turn_still ht hw
    exact ⟨rfl, hcr⟩
  exact ⟨{ w.dev.tx with sendOk := false }, ⟨hsending, rfl, hempty⟩, hwire,
    (hclear (t := { w.dev.tx with sendOk := false }) hsending (hclear hsending hstart)).1⟩

/-- **`send`.** -/
theorem send_spec (hquiet : t.Quiet) (h : w.dev.Still t)
    (hsend : send (chip env) fuel data w = some ret) :
    (∃ sent, sent <+: data.take t.mem.size ∧ ret.2.dev.tx.wire = t.wire ++ sent) ∧
      (ret.1 ≠ 0 → ret.2.dev.cr = none ∧ ret.2.dev.tx.Quiet ∧
        ret.2.dev.tx.wire = t.wire ++ data.take t.mem.size) := by
  obtain ⟨⟨n, w₁⟩, hfree, hsend⟩ := Option.bind_eq_some_iff.mp hsend
  obtain ⟨w₂, hcommand, hsend⟩ := Option.bind_eq_some_iff.mp hsend
  obtain ⟨⟨ok, w₃⟩, hsent, hsend⟩ := Option.bind_eq_some_iff.mp hsend
  have hsize : w.dev.tx.mem.size = t.mem.size := congrArg (fun t => t.mem.size) h.1
  rw [hsize] at hfree
  obtain ⟨hready, hn⟩ := waitFree_inv (p := chip env) (I := fun s => s.Still t)
    (fun s e hs => hs.on hquiet.sending e) h hfree
  have htake : data.take (min data.length t.mem.size) = data.take t.mem.size := by
    rw [List.take_eq_take_iff]
    omega
  have hle : (data.take n).length ≤ t.mem.size := by
    rw [List.length_take]
    omega
  have hprefix : data.take n <+: data.take t.mem.size := by
    rcases hn with rfl | rfl
    · exact htake ▸ List.prefix_rfl
    · exact List.nil_prefix
  obtain ⟨hsends, hcr, hok⟩ := sent_spec hquiet hle hready hcommand hsent
  cases ok with
  | true =>
      obtain rfl := Option.some.inj hsend
      obtain ⟨t', hquiet', hwire, htx⟩ : ∃ t', t'.Quiet ∧ t'.wire = t.wire ++ data.take n ∧
          ((chip env).write (fun s => { s with tx := { s.tx with sendOk := false } })
            ((chip env).write (fun s => { s with tx := { s.tx with sendOk := false } }) _)).dev.tx = t' :=
        clear_spec hsends hcr (hok rfl)
      have hnone {w : World Sock} (hw : w.dev.cr = none) : ((chip env).write
          (fun s => { s with tx := { s.tx with sendOk := false } }) w).dev.cr = none :=
        write_inv (p := chip env) (I := fun s => s.cr = none) (fun s e hs => Sock.cr_on hs e)
          (fun s hs => hs) hw
      refine ⟨⟨data.take n, hprefix, htx ▸ hwire⟩, fun hne => ⟨hnone (hnone hcr), htx ▸ hquiet', ?_⟩⟩
      rcases hn with rfl | rfl
      · exact htx ▸ htake ▸ hwire
      · exact absurd rfl hne
  | false =>
      obtain ⟨w₄, hclose, rfl⟩ := Option.map_eq_some_iff.mp hsend
      obtain ⟨w₅, hcommand', rfl⟩ := Option.map_eq_some_iff.mp hclose
      have hclosed := (command_inv (p := chip env) (c := .close)
        (I := fun s => s.Sends t.mem.size t.wire (data.take n)) (fun s e hs => hs.on e)
        (fun s hs => ⟨hs.part, nofun, hs.size⟩) hsends hcommand').1
      obtain ⟨⟨sent, rest, hdata, hpart⟩, hready, hsize'⟩ := Party.turn_inv (p := chip env)
        (I := fun s => s.Sends t.mem.size t.wire (data.take n)) (fun s e hs => hs.on e) hclosed
      exact ⟨⟨sent, (hdata ▸ List.prefix_append sent rest).trans hprefix, hpart.wire⟩,
        fun hne => absurd rfl hne⟩

end Sending

end W5500

end SingleScan
