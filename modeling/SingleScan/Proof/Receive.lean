import SingleScan.Proof.Transmit

/-!
# What comes in through the network chip

The bytes that have come in are those handed over and those in the buffer (`Rx.Offers`), and `recv` takes its
bytes from the front, whatever arrives meanwhile.
-/

namespace SingleScan

namespace W5500

open Interleave

variable {p : Chip} {w w' : World Sock}

/-- What has come in is `done`, and what is in the buffer: `data`, and `more`. -/
structure Rx.Offers (r : Rx) (done data more : List Byte) : Prop where
  live : r.mem.bytes r.base (r.wr - r.base).toNat = data ++ more
  arrived : r.arrived = done ++ (data ++ more)
  fits : (r.wr - r.base).toNat ≤ r.mem.size

namespace Rx.Offers

variable {r : Rx} {done data more new : List Byte}

theorem level (h : r.Offers done data more) : (r.wr - r.base).toNat = data.length + more.length := by
  rw [← List.length_append, ← h.live, Buffer.length_bytes]

theorem wr_eq (r : Rx) : r.wr = r.base + BitVec.ofNat 16 (r.wr - r.base).toNat := by
  rw [BitVec.ofNat_toNat, BitVec.setWidth_eq, BitVec.add_comm, BitVec.sub_add_cancel]

/-- More bytes come in. -/
theorem arrive (h : r.Offers done data more) (new : List Byte) :
    ∃ more', (r.arrive new).Offers done data more' ∧
      (r.wr - r.base).toNat ≤ ((r.arrive new).wr - (r.arrive new).base).toNat := by
  unfold Rx.arrive
  split_ifs with hroom
  · have hsmall := r.mem.small
    have hlevel : (r.wr + BitVec.ofNat 16 new.length - r.base).toNat =
        (r.wr - r.base).toNat + new.length := by
      have hbase := r.base.isLt
      rw [BitVec.toNat_sub] at hroom
      rw [BitVec.toNat_sub, BitVec.toNat_sub, BitVec.toNat_add, BitVec.toNat_ofNat]
      omega
    refine ⟨more ++ new, ⟨?_, ?_, ?_⟩, by rw [hlevel]; exact Nat.le_add_right _ _⟩
    · show (r.mem.put r.wr new).bytes r.base (r.wr + BitVec.ofNat 16 new.length - r.base).toNat = _
      have hput : (r.mem.put (r.base + BitVec.ofNat 16 (r.wr - r.base).toNat) new).bytes r.base
          ((r.wr - r.base).toNat + new.length) = r.mem.bytes r.base (r.wr - r.base).toNat ++ new :=
        Buffer.bytes_put hroom
      rw [← wr_eq, h.live] at hput
      rw [hlevel, hput, List.append_assoc]
    · show r.arrived ++ new = _
      rw [h.arrived]
      simp only [List.append_assoc]
    · exact hlevel.trans_le hroom
  · exact ⟨more, h, le_rfl⟩

/-- Bytes are marked out to be read. -/
theorem split (h : r.Offers done [] more) {n : ℕ} (hn : n ≤ (r.wr - r.base).toNat) :
    r.Offers done (more.take n) (more.drop n) ∧ (more.take n).length = n := by
  refine ⟨⟨?_, ?_, h.fits⟩, ?_⟩
  · rw [List.take_append_drop]
    exact h.live
  · rw [List.take_append_drop]
    exact h.arrived
  · have hlevel := h.level
    rw [List.length_take]
    rw [List.length_nil, Nat.zero_add] at hlevel
    omega

theorem get (h : r.Offers done (data ++ byte :: new) more) :
    r.mem.get (r.base + BitVec.ofNat 16 data.length) = byte := by
  have hlive := h.live
  rw [h.level, List.length_append, List.length_cons, Nat.add_assoc, Buffer.bytes_add,
    Nat.add_right_comm, Buffer.bytes_succ] at hlive
  rw [List.append_assoc] at hlive
  have hlen : (r.mem.bytes r.base data.length).length = data.length := Buffer.length_bytes _ _ _
  exact (List.cons.inj (List.append_inj hlive hlen).2).1

/-- The bytes are given free. -/
theorem consume (h : r.Offers done data more) (hrd : r.rd = r.base + BitVec.ofNat 16 data.length) :
    { r with base := r.rd }.Offers (done ++ data) [] more := by
  have hsmall := r.mem.small
  have hfits := h.fits
  have hlevel := h.level
  have hrest : (r.wr - r.rd).toNat = more.length := by
    have hwr := wr_eq r
    rw [hlevel, BitVec.ofNat_add, ← BitVec.add_assoc, ← hrd] at hwr
    have hsub : r.wr - r.rd = BitVec.ofNat 16 more.length := by
      rw [hwr, BitVec.add_comm, BitVec.add_sub_cancel]
    rw [hsub, BitVec.toNat_ofNat, Nat.mod_eq_of_lt (by omega)]
  refine ⟨?_, ?_, ?_⟩
  · show r.mem.bytes r.rd (r.wr - r.rd).toNat = [] ++ more
    have hlive := h.live
    rw [hlevel, Buffer.bytes_add, ← hrd] at hlive
    rw [hrest]
    exact (List.append_inj hlive (Buffer.length_bytes _ _ _)).2
  · rw [List.append_assoc]
    exact h.arrived
  · show (r.wr - r.rd).toNat ≤ r.mem.size
    omega

end Rx.Offers

section Receiving

variable {env : ℕ → List Event} {s : Sock} {done data : List Byte} {fuel : ℕ}

/-- `done` has been handed over, and no byte is being read. -/
def Sock.Rests (s : Sock) (done : List Byte) : Prop :=
  s.rx.rd = s.rx.base ∧ ∃ more, s.rx.Offers done [] more

/-- Behind `done` the driver reads `data`, from `base` on. -/
def Sock.Reads (s : Sock) (base : BitVec 16) (done data : List Byte) : Prop :=
  s.cr ≠ some .recv ∧ s.rx.base = base ∧ ∃ more, s.rx.Offers done data more

/-- The driver gives `data` free. -/
def Sock.Frees (s : Sock) (done data : List Byte) : Prop :=
  (s.cr = some .recv ∧ s.rx.rd = s.rx.base + BitVec.ofNat 16 data.length ∧
      ∃ more, s.rx.Offers done data more) ∨
    s.cr = none ∧ s.Rests (done ++ data)

theorem Sock.Rests.on (h : s.Rests done) (e : Event) : (s.on e).Rests done := by
  obtain ⟨hrd, more, hoffers⟩ := h
  cases e with
  | execute =>
      show s.execute.Rests done
      unfold Sock.execute
      split
      · exact ⟨hrd, more, hoffers⟩
      · split_ifs
        · exact ⟨hrd, more, hoffers⟩
        · exact ⟨hrd, more, hoffers⟩
      · have hfree := hoffers.consume (by rw [hrd, List.length_nil, BitVec.add_zero])
        rw [List.append_nil] at hfree
        exact ⟨rfl, more, hfree⟩
      · exact ⟨hrd, more, hoffers⟩
  | transmit => exact ⟨hrd, more, hoffers⟩
  | arrive new =>
      obtain ⟨more', hoffers', -⟩ := hoffers.arrive new
      refine ⟨?_, more', hoffers'⟩
      show (s.rx.arrive new).rd = (s.rx.arrive new).base
      unfold Rx.arrive
      split_ifs
      · exact hrd
      · exact hrd
  | status sr => exact ⟨hrd, more, hoffers⟩

theorem Rx.rd_arrive (r : Rx) (new : List Byte) :
    (r.arrive new).rd = r.rd ∧ (r.arrive new).base = r.base := by
  unfold Rx.arrive
  split_ifs <;> exact ⟨rfl, rfl⟩

/-- While the driver reads, the chip leaves the pointers, and the level only rises. -/
theorem Sock.Reads.on {base : BitVec 16} (h : s.Reads base done data) (e : Event) :
    (s.on e).Reads base done data ∧ (s.on e).rx.rd = s.rx.rd ∧
      s.rxRsr.toNat ≤ (s.on e).rxRsr.toNat := by
  obtain ⟨hcr, hbase, more, hoffers⟩ := h
  cases e with
  | execute =>
      show s.execute.Reads base done data ∧ s.execute.rx.rd = s.rx.rd ∧
        s.rxRsr.toNat ≤ s.execute.rxRsr.toNat
      unfold Sock.execute
      split
      · exact ⟨⟨hcr, hbase, more, hoffers⟩, rfl, le_rfl⟩
      · split_ifs
        · exact ⟨⟨nofun, hbase, more, hoffers⟩, rfl, le_rfl⟩
        · exact ⟨⟨nofun, hbase, more, hoffers⟩, rfl, le_rfl⟩
      · rename_i hrecv
        exact absurd hrecv hcr
      · exact ⟨⟨nofun, hbase, more, hoffers⟩, rfl, le_rfl⟩
  | transmit => exact ⟨⟨hcr, hbase, more, hoffers⟩, rfl, le_rfl⟩
  | arrive new =>
      obtain ⟨more', hoffers', hrise⟩ := hoffers.arrive new
      obtain ⟨hrd', hbase'⟩ := Rx.rd_arrive s.rx new
      exact ⟨⟨hcr, hbase'.trans hbase, more', hoffers'⟩, hrd', hrise⟩
  | status sr => exact ⟨⟨hcr, hbase, more, hoffers⟩, rfl, le_rfl⟩

theorem Sock.Frees.on (h : s.Frees done data) (e : Event) : (s.on e).Frees done data := by
  rcases h with ⟨hcr, hrd, more, hoffers⟩ | ⟨hcr, hrests⟩
  · cases e with
    | execute =>
        show s.execute.Frees done data
        rw [Sock.execute, hcr]
        exact .inr ⟨rfl, rfl, more, hoffers.consume hrd⟩
    | transmit => exact .inl ⟨hcr, hrd, more, hoffers⟩
    | arrive new =>
        obtain ⟨more', hoffers', -⟩ := hoffers.arrive new
        obtain ⟨hrd', hbase'⟩ := Rx.rd_arrive s.rx new
        refine .inl ⟨hcr, ?_, more', hoffers'⟩
        show (s.rx.arrive new).rd = (s.rx.arrive new).base + _
        rw [hrd', hbase', hrd]
    | status sr => exact .inl ⟨hcr, hrd, more, hoffers⟩
  · exact .inr ⟨Sock.cr_on hcr e, hrests.on e⟩

/-- Byte after byte, behind those that have been read. -/
theorem wizReadBuf_spec {base : BitVec 16} {before : List Byte}
    (h : w.dev.Reads base done (before ++ data)) :
    (wizReadBuf (chip env) (base + BitVec.ofNat 16 before.length) data.length w).1 = data := by
  induction data generalizing before w with
  | nil => rfl
  | cons byte data ih =>
      have hturn : ((chip env).turn w).dev.Reads base done (before ++ byte :: data) :=
        Party.turn_inv (p := chip env) (I := fun s => s.Reads base done (before ++ byte :: data))
          (fun s e hs => (hs.on e).1) h
      have ⟨_, hbase, more, hoffers⟩ := hturn
      have hbyte := hoffers.get
      rw [hbase] at hbyte
      have hnext : base + BitVec.ofNat 16 before.length + 1 =
          base + BitVec.ofNat 16 (before ++ [byte]).length := by
        rw [List.length_append, BitVec.ofNat_add, ← BitVec.add_assoc]
        rfl
      have hrest : (wizReadBuf (chip env) (base + BitVec.ofNat 16 (before ++ [byte]).length) data.length
          ((chip env).turn w)).1 = data := ih (by rw [List.append_assoc]; exact hturn)
      rw [← hnext] at hrest
      exact congrArg₂ List.cons hbyte hrest

/-- The driver reads, and the read pointer is `rd`. -/
theorem reads_at_on {base rd : BitVec 16} (s : Sock) (e : Event)
    (h : s.Reads base done data ∧ s.rx.rd = rd) : (s.on e).Reads base done data ∧ (s.on e).rx.rd = rd := by
  obtain ⟨hreads, hrd, -⟩ := h.1.on e
  exact ⟨hreads, hrd.trans h.2⟩

theorem writeWord_reads {base rd x : BitVec 16} (h : w.dev.Reads base done data ∧ w.dev.rx.rd = rd) :
    (writeWord (chip env) Sock.setRxRd x w).dev.Reads base done data ∧
      (writeWord (chip env) Sock.setRxRd x w).dev.rx.rd = x := by
  have hoff {s : Sock} (f : BitVec 16 → BitVec 16) (hs : s.Reads base done data) :
      (s.setRxRd f).Reads base done data := by
    obtain ⟨hcr, hbase, more, hoffers⟩ := hs
    exact ⟨hcr, hbase, more, hoffers.live, hoffers.arrived, hoffers.fits⟩
  obtain ⟨hfirst, hrd⟩ := Party.turn_inv (p := chip env)
    (I := fun s => s.Reads base done data ∧ s.rx.rd = rd) reads_at_on h
  have hhigh : ((chip env).write (fun s => s.setRxRd fun old => x.extractLsb' 8 8 ++ old.setWidth 8)
      w).dev.Reads base done data ∧ ((chip env).write
        (fun s => s.setRxRd fun old => x.extractLsb' 8 8 ++ old.setWidth 8) w).dev.rx.rd =
          x.extractLsb' 8 8 ++ rd.setWidth 8 :=
    ⟨hoff _ hfirst, congrArg (fun old => x.extractLsb' 8 8 ++ old.setWidth 8) hrd⟩
  obtain ⟨hsecond, hrd'⟩ := Party.turn_inv (p := chip env)
    (I := fun s => s.Reads base done data ∧ s.rx.rd = x.extractLsb' 8 8 ++ rd.setWidth 8)
    reads_at_on hhigh
  refine ⟨hoff _ hsecond, ?_⟩
  show (Party.turn (chip env) _).dev.rx.rd.extractLsb' 8 8 ++ x.setWidth 8 = x
  rw [hrd', Bits.extractLsb'_high, word_halves]

/-- **`recv`.** -/
theorem recv_spec {len : ℕ} {r : List Byte × World Sock} (h : w.dev.Rests done) (hcr : w.dev.cr = none)
    (hlen : len ≤ w.dev.rxRsr.toNat) (hrecv : recv (chip env) fuel len w = some r) :
    r.2.dev.Rests (done ++ r.1) ∧ r.2.dev.cr = none ∧ r.1.length = len := by
  obtain ⟨hrd, more, hoffers⟩ := h
  unfold recv recvDataProcessing at hrecv
  split_ifs at hrecv with hpos hzero
  · exact absurd hzero hpos.ne'
  · obtain ⟨w₁, hcommand, rfl⟩ := Option.map_eq_some_iff.mp hrecv
    obtain ⟨hsplit, hcount⟩ := hoffers.split hlen
    obtain ⟨data, hdata⟩ : ∃ data, data = more.take len := ⟨_, rfl⟩
    obtain ⟨base, hbase⟩ : ∃ base, base = w.dev.rx.base := ⟨_, rfl⟩
    rw [← hdata] at hsplit hcount
    rw [← hbase] at hrd
    have hon (s : Sock) (e : Event) (hs : s.Reads base done data ∧ s.rx.rd = base) :=
      reads_at_on s e hs
    have hstart : w.dev.Reads base done data ∧ w.dev.rx.rd = base :=
      ⟨⟨by rw [hcr]; nofun, hbase.symm, _, hsplit⟩, hrd⟩
    have hptr : (readWord (chip env) (fun s => s.rx.rd) w).1 = base :=
      readWord_const (p := chip env) hon (fun s hs => hs.2) hstart
    have hread := readWord_inv (p := chip env) (f := fun s => s.rx.rd) hon hstart
    have hbytes : (wizReadBuf (chip env) (base + BitVec.ofNat 16 ([] : List Byte).length) data.length
        (readWord (chip env) (fun s => s.rx.rd) w).2).1 = data := wizReadBuf_spec hread.1
    rw [List.length_nil, BitVec.add_zero, hcount] at hbytes
    have hafter := wizReadBuf_inv (p := chip env) (a := base) (n := len) hon hread
    have hwritten : (writeWord (chip env) Sock.setRxRd (base + BitVec.ofNat 16 len) _).dev.Reads base done
        data ∧ _ := writeWord_reads hafter
    dsimp only at hcommand ⊢
    rw [hptr] at hcommand ⊢
    rw [hbytes]
    have hgiven := Party.turn_inv (p := chip env)
      (I := fun s => s.Reads base done data ∧ s.rx.rd = base + BitVec.ofNat 16 len) reads_at_on hwritten
    obtain ⟨⟨hcr', hbase', more', hoffers'⟩, hrd'⟩ := hgiven
    have hfrees : ((chip env).write (fun s => { s with cr := some .recv }) (writeWord (chip env)
        Sock.setRxRd (base + BitVec.ofNat 16 len) (wizReadBuf (chip env) base len
          (readWord (chip env) (fun s => s.rx.rd) w).2).2)).dev.Frees done data := by
      refine .inl ⟨rfl, ?_, more', hoffers'⟩
      rw [hcount]
      exact hrd'.trans (congrArg (· + BitVec.ofNat 16 len) hbase'.symm)
    obtain ⟨hend, htest⟩ := Party.wait_inv (p := chip env) (I := fun s => s.Frees done data)
      (fun s e hs => hs.on e) hfrees hcommand
    rcases hend with ⟨hsome, -⟩ | ⟨hnone, hrests⟩
    · rw [hsome] at htest
      exact Bool.noConfusion htest
    · exact ⟨hrests, hnone, hcount⟩
  · obtain rfl := Option.some.inj hrecv
    rw [List.append_nil]
    exact ⟨⟨hrd, more, hoffers⟩, hcr, (Nat.eq_zero_of_not_pos hpos).symm⟩

theorem rests_on (s : Sock) (e : Event) (hs : s.Rests done ∧ s.cr = none) :
    (s.on e).Rests done ∧ (s.on e).cr = none :=
  ⟨hs.1.on e, Sock.cr_on hs.2 e⟩

theorem rsr_mono (s : Sock) (e : Event) (hs : s.Rests done ∧ s.cr = none) :
    s.rxRsr.toNat ≤ (s.on e).rxRsr.toNat := by
  obtain ⟨⟨hrd, more, hoffers⟩, hcr⟩ := hs
  have hreads : s.Reads s.rx.base done [] := ⟨by rw [hcr]; nofun, rfl, more, hoffers⟩
  exact (hreads.on e).2.2

/-- No byte is read before it is there. -/
theorem getSn_le {val : BitVec 16} {r : BitVec 16 × World Sock}
    (h : w.dev.Rests done ∧ w.dev.cr = none)
    (hread : getSn (chip env) Sock.rxRsr fuel val w = some r) : r.1.toNat ≤ r.2.dev.rxRsr.toNat := by
  obtain ⟨n, hturns, hlevel⟩ := getSn_sound (p := chip env) rests_on rsr_mono h hread
  rw [hturns]
  rcases hlevel with hzero | ⟨k, hk, hval⟩
  · rw [hzero]
    exact Nat.zero_le _
  · rw [hval]
    exact level_mono (p := chip env) rests_on rsr_mono h hk

/-- **`poll`.** -/
theorem poll_spec {r : List Byte × World Sock} (h : w.dev.Rests done) (hcr : w.dev.cr = none)
    (hpoll : poll (chip env) fuel w = some r) :
    r.2.dev.Rests (done ++ r.1) ∧ r.2.dev.cr = none := by
  have hstatus := Party.turn_inv (p := chip env) rests_on ⟨h, hcr⟩
  unfold poll at hpoll
  dsimp only at hpoll
  split_ifs at hpoll
  · obtain ⟨len, hlen, hrecv⟩ := Option.bind_eq_some_iff.mp hpoll
    obtain ⟨hrests, hnone⟩ := getSn_inv (p := chip env) rests_on hstatus hlen
    obtain ⟨hend, hnone', -⟩ := recv_spec hrests hnone (getSn_le hstatus hlen) hrecv
    exact ⟨hend, hnone'⟩
  · obtain rfl := Option.some.inj hpoll
    rw [List.append_nil]
    exact hstatus

end Receiving

end W5500

end SingleScan
