import SingleScan.Proof.Receive

/-!
# A connection through the network chip

The calls on a connection return if the chip goes on, and what goes through it is in order (`streams_in_order`).
`recv` trusts the level that it has read, and `buffer` is smaller than what some sockets can hold
(`recv_overruns_iff`).
-/

namespace SingleScan

namespace W5500

open Interleave

variable {p : Chip} {w w' : World Sock}

/-! ### The calls return -/

/-- The chip takes commands and sends bytes again and again. -/
structure Busy (env : ℕ → List Event) : Prop where
  execute : ∀ n, ∃ m, n ≤ m ∧ Event.execute ∈ env m
  transmit : ∀ n, ∃ m, n ≤ m ∧ Event.transmit ∈ env m

section Progress

variable {env : ℕ → List Event} {t : Tx} {data done : List Byte}

theorem Sock.cr_execute (s : Sock) : s.execute.cr = none := by
  unfold Sock.execute
  split
  · assumption
  · split_ifs <;> rfl
  · rfl
  · rfl

theorem command_returns (hbusy : Busy env) (c : Command) (w : World Sock) :
    ∃ w', Returns (fun fuel => command (chip env) c fuel w) w' := by
  obtain ⟨n, hcr⟩ := Party.turns_event (p := chip env) (I := fun _ => True)
    (G := fun s => s.cr = none) (e := .execute) (fun _ _ _ => trivial)
    (fun s e hs => Sock.cr_on hs e) (fun s _ => s.cr_execute)
    (w := (chip env).write (fun s => { s with cr := some c }) w) trivial hbusy.execute
  exact Party.wait_returns (Option.isSome_eq_false_iff.mpr (Option.isNone_iff_eq_none.mpr hcr))

theorem closeSocket_returns (hbusy : Busy env) (w : World Sock) :
    ∃ w', Returns (fun fuel => closeSocket (chip env) fuel w) w' := by
  obtain ⟨w', hw⟩ := command_returns hbusy .close w
  exact ⟨_, hw.map⟩

/-- Nothing is in the buffer, and all of it is free. -/
theorem txFsr_of_quiet {s : Sock} (h : s.tx.Quiet) :
    s.txFsr.toNat = s.tx.mem.size ∧ s.txFsr ≠ 0 := by
  have hsmall := s.tx.mem.small
  have hsize : s.txFsr.toNat = s.tx.mem.size := by
    rw [Sock.txFsr, h.empty, BitVec.sub_self, BitVec.toNat_zero, Nat.sub_zero, BitVec.toNat_ofNat,
      Nat.mod_eq_of_lt hsmall]
  refine ⟨hsize, fun hzero => ?_⟩
  rw [hzero] at hsize
  have hdivides := s.tx.mem.divides
  rw [← hsize] at hdivides
  exact absurd hdivides (by decide)

theorem waitFree_returns (hquiet : t.Quiet) (h : w.dev.Still t) {n : ℕ} (hn : n ≤ t.mem.size) :
    ∃ r, Returns (fun fuel => waitFree (chip env) fuel fuel n w) r := by
  obtain ⟨x, hx⟩ : ∃ x, x = w.dev.txFsr := ⟨_, rfl⟩
  obtain ⟨hsize, hne⟩ := txFsr_of_quiet (s := w.dev) (h.1.symm ▸ hquiet)
  rw [← hx, h.1] at hsize
  rw [← hx] at hne
  have hon (s : Sock) (e : Event) (hs : s.Still t) : (s.on e).Still t := hs.on hquiet.sending e
  have hconst (s : Sock) (hs : s.Still t) : s.txFsr = x := by
    rw [hx, Sock.txFsr, Sock.txFsr, hs.1, h.1]
  obtain ⟨again, hagain, -, hlevel⟩ := getSn_const (p := chip env) hon hconst hne h
  have hroom : ¬ again.1.toNat < n := by
    rw [hagain, hsize]
    exact Nat.not_lt.mpr hn
  have hround (fuel : ℕ) : waitFree (chip env) (fuel + 1) (fuel + 1) n w =
      some (if ((chip env).turn again.2).dev.connected then n else 0, (chip env).turn again.2) := by
    rw [waitFree, getSnTxFsr, hlevel, Option.bind_some]
    cases hstatus : ((chip env).turn again.2).dev.connected with
    | false => exact if_pos (congrArg not hstatus)
    | true => exact (if_neg (Bool.eq_false_iff.mp (congrArg not hstatus))).trans (if_neg hroom)
  exact ⟨_, Returns.of_succ ⟨0, fun fuel _ => hround fuel⟩⟩

/-- What the last loop of `send` waits for. -/
def Sock.Over (s : Sock) : Prop := s.tx.sendOk = true ∨ s.connected = false

theorem Sock.sendOk_on {s : Sock} (h : s.tx.sendOk = true) (e : Event) : (s.on e).tx.sendOk = true := by
  cases e with
  | execute =>
      show s.execute.tx.sendOk = true
      unfold Sock.execute
      split
      · exact h
      · split_ifs <;> exact h
      · exact h
      · exact h
  | transmit =>
      show s.tx.transmit.sendOk = true
      unfold Tx.transmit
      split_ifs
      · rfl
      · exact h
      · exact h
  | arrive new => exact h
  | status sr => exact h

theorem Sock.lost_on {s : Sock} (h : s.connected = false) (e : Event) : (s.on e).connected = false := by
  cases e with
  | execute =>
      show s.execute.connected = false
      unfold Sock.execute
      split
      · exact h
      · split_ifs <;> exact h
      · exact h
      · rfl
  | transmit => exact h
  | arrive new => exact h
  | status sr =>
      have hkeep : s.status sr = s := by rw [Sock.status, h]; rfl
      show (s.status sr).connected = false
      rw [hkeep]
      exact h

theorem Sock.Over.on {s : Sock} (h : s.Over) (e : Event) : (s.on e).Over :=
  h.imp (fun hok => Sock.sendOk_on hok e) (fun hlost => Sock.lost_on hlost e)

/-- `SEND` is under way, or over. -/
def Sock.Sending (s : Sock) : Prop := s.cr = none ∧ (s.tx.sending = true ∨ s.Over)

/-- How many bytes the chip has still to send, and one for the end. -/
def Tx.left (t : Tx) : ℕ := if t.sending then (t.stop - t.rd).toNat + 1 else 0

theorem Tx.left_transmit {t : Tx} (h : t.sending = true) :
    t.transmit.sendOk = true ∨ t.transmit.sending = true ∧ t.transmit.left < t.left := by
  unfold Tx.transmit
  rw [if_pos h]
  split_ifs with hend
  · exact .inl rfl
  · refine .inr ⟨h, ?_⟩
    unfold Tx.left
    dsimp only
    rw [if_pos h, if_pos h]
    have hstop := t.stop.isLt
    have hrd := t.rd.isLt
    have hone : BitVec.toNat (1 : BitVec 16) = 1 := rfl
    have hne : t.rd.toNat ≠ t.stop.toNat := fun heq => hend (BitVec.eq_of_toNat_eq heq)
    rw [BitVec.toNat_sub, BitVec.toNat_sub, BitVec.toNat_add, hone]
    omega

theorem Sock.Sending.on {s : Sock} (h : s.Sending) (e : Event) :
    (s.on e).Sending ∧ ((s.on e).Over ∨ (s.on e).tx.left ≤ s.tx.left) := by
  obtain ⟨hcr, hsends⟩ := h
  by_cases hover : s.Over
  · exact ⟨⟨Sock.cr_on hcr e, .inr (hover.on e)⟩, .inl (hover.on e)⟩
  · have hsending := hsends.resolve_right hover
    cases e with
    | execute =>
        show s.execute.Sending ∧ (s.execute.Over ∨ s.execute.tx.left ≤ s.tx.left)
        rw [Sock.execute, hcr]
        exact ⟨⟨hcr, hsends⟩, .inr le_rfl⟩
    | transmit =>
        rcases Tx.left_transmit hsending with hok | ⟨hstill, hless⟩
        · exact ⟨⟨hcr, .inr (.inl hok)⟩, .inl (.inl hok)⟩
        · exact ⟨⟨hcr, .inl hstill⟩, .inr hless.le⟩
    | arrive new => exact ⟨⟨hcr, hsends⟩, .inr le_rfl⟩
    | status sr => exact ⟨⟨hcr, .inl hsending⟩, .inr le_rfl⟩

theorem over_reached (hbusy : Busy env) {k : ℕ} (h : w.dev.Sending) (hleft : w.dev.tx.left ≤ k) :
    ∃ n, ((chip env).turn^[n] w).dev.Over := by
  induction k generalizing w with
  | zero =>
      refine ⟨0, h.2.resolve_left fun hsending => ?_⟩
      rw [Tx.left, if_pos hsending] at hleft
      exact absurd hleft (Nat.not_succ_le_zero _)
  | succ k ih =>
      have hon (n : ℕ) (s : Sock) (e : Event) (hs : s.Sending ∧ (s.Over ∨ s.tx.left ≤ n)) :
          (s.on e).Sending ∧ ((s.on e).Over ∨ (s.on e).tx.left ≤ n) := by
        obtain ⟨hsending, hless⟩ := hs.1.on e
        refine ⟨hsending, ?_⟩
        rcases hs.2 with hover | hle
        · exact .inl (hover.on e)
        · exact hless.imp_right fun hle' => hle'.trans hle
      have htransmit (s : Sock) (hs : s.Sending ∧ (s.Over ∨ s.tx.left ≤ k + 1)) :
          (s.on .transmit).Sending ∧ ((s.on .transmit).Over ∨ (s.on .transmit).tx.left ≤ k) := by
        refine ⟨(hs.1.on .transmit).1, ?_⟩
        by_cases hover : s.Over
        · exact .inl (hover.on .transmit)
        · rcases Tx.left_transmit (hs.1.2.resolve_right hover) with hok | ⟨-, hless⟩
          · exact .inl (.inl hok)
          · exact .inr (Nat.le_of_lt_succ (hless.trans_le (hs.2.resolve_left hover)))
      obtain ⟨n, hsending, hgoal⟩ := Party.turns_event (p := chip env) (w := w) (hon (k + 1)) (hon k)
        htransmit ⟨h, .inr hleft⟩ hbusy.transmit
      rcases hgoal with hover | hle
      · exact ⟨n + 1, hover⟩
      · obtain ⟨m, hm⟩ := ih hsending hle
        exact ⟨m + (n + 1), by rwa [Function.iterate_add_apply]⟩

theorem waitSent_returns {n : ℕ} (hover : ((chip env).turn^[n] w).dev.Over) :
    ∃ r, Returns (fun fuel => waitSent (chip env) fuel w) r := by
  induction n generalizing w with
  | zero =>
      have hturn : ((chip env).turn w).dev.Over :=
        Party.turn_inv (p := chip env) (I := Sock.Over) (fun s e hs => hs.on e) hover
      by_cases hok : ((chip env).turn w).dev.tx.sendOk = true
      · exact ⟨_, Returns.of_succ ⟨0, fun fuel _ => if_pos hok⟩⟩
      · have hlost : ((chip env).turn ((chip env).turn w)).dev.connected = false :=
          Party.turn_inv (p := chip env) (I := fun s => s.connected = false)
            (fun s e hs => Sock.lost_on hs e) (hturn.resolve_left hok)
        exact ⟨_, Returns.of_succ
          ⟨0, fun fuel _ => (if_neg hok).trans (if_pos (congrArg not hlost))⟩⟩
  | succ n ih =>
      by_cases hok : ((chip env).turn w).dev.tx.sendOk = true
      · exact ⟨_, Returns.of_succ ⟨0, fun fuel _ => if_pos hok⟩⟩
      · by_cases hlost : (!((chip env).turn ((chip env).turn w)).dev.connected) = true
        · exact ⟨_, Returns.of_succ ⟨0, fun fuel _ => (if_neg hok).trans (if_pos hlost)⟩⟩
        · have hlater : ((chip env).turn^[n] ((chip env).turn ((chip env).turn w))).dev.Over := by
            have hnext := Party.turn_inv (p := chip env) (I := Sock.Over) (fun s e hs => hs.on e) hover
            rw [← Function.iterate_succ_apply' (chip env).turn] at hnext
            exact hnext
          obtain ⟨r, enough, hr⟩ := ih hlater
          exact ⟨r, Returns.of_succ
            ⟨enough, fun fuel hfuel => ((if_neg hok).trans (if_neg hlost)).trans (hr fuel hfuel)⟩⟩

/-- `SEND` is taken, or the connection is lost. -/
theorem sending_of_command {fuel : ℕ} (hcommand : command (chip env) .send fuel w = some w') :
    w'.dev.Sending := by
  have hon (s : Sock) (e : Event) (hs : s.cr = some .send ∨ s.Sending) :
      (s.on e).cr = some .send ∨ (s.on e).Sending := by
    rcases hs with hcr | hsending
    · cases e with
      | execute =>
          right
          show s.execute.Sending
          rw [Sock.execute, hcr]
          dsimp only
          split_ifs with hup
          · exact ⟨rfl, .inl rfl⟩
          · exact ⟨rfl, .inr (.inr (Bool.eq_false_iff.mpr hup))⟩
      | transmit => exact .inl hcr
      | arrive new => exact .inl hcr
      | status sr => exact .inl hcr
    · exact .inr (hsending.on e).1
  obtain ⟨hend, htest⟩ := Party.wait_inv (p := chip env)
    (I := fun s => s.cr = some .send ∨ s.Sending) hon (.inl rfl) hcommand
  refine hend.resolve_left fun hcr => ?_
  rw [hcr] at htest
  exact Bool.noConfusion htest

theorem send_returns (hbusy : Busy env) (hquiet : t.Quiet) (h : w.dev.Still t) :
    ∃ r, Returns (fun fuel => send (chip env) fuel data w) r := by
  have hsize : w.dev.tx.mem.size = t.mem.size := congrArg (fun t => t.mem.size) h.1
  obtain ⟨⟨n, w₁⟩, hfree⟩ : ∃ r, Returns (fun fuel => waitFree (chip env) fuel fuel
      (min data.length w.dev.tx.mem.size) w) r := waitFree_returns hquiet h (by omega)
  obtain ⟨w₂, hcommand⟩ := command_returns hbusy .send (sendDataProcessing (chip env) (data.take n) w₁)
  have hsending : w₂.dev.Sending := by
    obtain ⟨enough, hsome⟩ := hcommand
    exact sending_of_command (hsome enough le_rfl)
  obtain ⟨m, hover⟩ := over_reached hbusy hsending le_rfl
  obtain ⟨⟨ok, w₃⟩, hsent⟩ := waitSent_returns hover
  cases ok with
  | true => exact ⟨_, hfree.bind (hcommand.bind (hsent.bind (Returns.pure _)))⟩
  | false =>
      obtain ⟨w₄, hclose⟩ := closeSocket_returns hbusy w₃
      exact ⟨_, hfree.bind (hcommand.bind (hsent.bind hclose.map))⟩

theorem poll_returns (hbusy : Busy env) (h : w.dev.Rests done) (hcr : w.dev.cr = none) :
    ∃ r, Returns (fun fuel => poll (chip env) fuel w) r := by
  have hstatus := Party.turn_inv (p := chip env) rests_on ⟨h, hcr⟩
  by_cases hup : ((chip env).turn w).dev.sr = sockEstablished
  · obtain ⟨len, hlen⟩ := getSn_ends (p := chip env) rests_on rsr_mono hstatus
      (k := 2 ^ 16) (v := 0) (fun hne => absurd rfl hne) (Nat.le_add_left _ _)
    have hlevel : Returns (fun fuel => getSnRxRsr (chip env) fuel ((chip env).turn w)) len := ⟨2 ^ 16, hlen⟩
    have hrecv : ∃ r, Returns (fun fuel => recv (chip env) fuel len.1.toNat len.2) r := by
      unfold recv
      split_ifs
      · obtain ⟨w', hcommand⟩ := command_returns hbusy .recv
          (recvDataProcessing (chip env) len.1.toNat len.2).2
        exact ⟨_, hcommand.map⟩
      · exact ⟨_, Returns.pure _⟩
    obtain ⟨r, hr⟩ := hrecv
    refine ⟨r, ?_⟩
    unfold poll
    simp only [Party.read, hup, if_true]
    exact hlevel.bind hr
  · refine ⟨([], (chip env).turn w), ⟨0, fun fuel _ => ?_⟩⟩
    exact if_neg hup

end Progress

/-! ### A connection -/

section Connection

variable {env : ℕ → List Event} {fuel : ℕ} {x x' : Session}

/-- Between two calls. -/
structure Session.Sound (x : Session) : Prop where
  received : x.world.dev.Rests x.received
  sent : x.world.dev.tx.wire <+: x.offered
  alive : x.alive = true → x.world.dev.cr = none ∧ x.world.dev.tx.Quiet ∧
    x.world.dev.tx.wire = x.offered

theorem Session.Sound.call {c : Call} (h : x.Sound) (hcall : x.call (chip env) fuel c = some x') :
    x'.Sound := by
  unfold Session.call at hcall
  split_ifs at hcall with halive
  · obtain ⟨hcr, hquiet, hwire⟩ := h.alive halive
    have hstill : x.world.dev.Still x.world.dev.tx := ⟨rfl, by rw [hcr]; nofun⟩
    cases c with
    | poll =>
        obtain ⟨r, hpoll, rfl⟩ := Option.map_eq_some_iff.mp hcall
        obtain ⟨hrests, hnone⟩ := poll_spec h.received hcr hpoll
        obtain ⟨htx, -⟩ := poll_inv (p := chip env) (I := fun s => s.Still x.world.dev.tx)
          (fun s e hs => hs.on hquiet.sending e) (fun s rx hs => hs) (fun s hs => ⟨hs.1, nofun⟩) hstill hpoll
        refine ⟨hrests, ?_, fun _ => ⟨hnone, ?_, ?_⟩⟩
        · exact htx ▸ h.sent
        · exact htx ▸ hquiet
        · exact htx ▸ hwire
    | send buf =>
        obtain ⟨r, hsend, rfl⟩ := Option.map_eq_some_iff.mp hcall
        obtain ⟨⟨sent, hprefix, hout⟩, hdone⟩ := send_spec hquiet hstill hsend
        have hrests := send_inv (p := chip env) (I := fun s => s.Rests x.received)
          (fun s e hs => hs.on e) (fun s tx hs => hs) (fun s c hs => hs) h.received hsend
        refine ⟨hrests, ?_, fun hok => ?_⟩
        · rw [hout, hwire]
          exact (List.prefix_append_right_inj x.offered).mpr hprefix
        · have hne : r.1 ≠ 0 := of_decide_eq_true hok
          obtain ⟨hnone, hquiet', hwire'⟩ := hdone hne
          exact ⟨hnone, hquiet', hwire ▸ hwire'⟩
  · obtain rfl := Option.some.inj hcall
    exact h

theorem Session.Sound.run {calls : List Call} (h : x.Sound)
    (hrun : x.run (chip env) fuel calls = some x') : x'.Sound := by
  induction calls generalizing x with
  | nil =>
      obtain rfl := Option.some.inj hrun
      exact h
  | cons c calls ih =>
      obtain ⟨x₁, hcall, hrest⟩ := Option.bind_eq_some_iff.mp hrun
      exact ih (h.call hcall) hrest

theorem Session.Sound.call_returns (hbusy : Busy env) (h : x.Sound) (c : Call) :
    ∃ x', Returns (fun fuel => x.call (chip env) fuel c) x' := by
  unfold Session.call
  split_ifs with halive
  · obtain ⟨hcr, hquiet, -⟩ := h.alive halive
    cases c with
    | poll =>
        obtain ⟨r, hr⟩ := poll_returns hbusy h.received hcr
        exact ⟨_, hr.map⟩
    | send buf =>
        obtain ⟨r, hr⟩ : ∃ r, Returns (fun fuel => send (chip env) fuel buf x.world) r :=
          send_returns hbusy hquiet ⟨rfl, by rw [hcr]; nofun⟩
        exact ⟨_, hr.map⟩
  · exact ⟨x, Returns.pure x⟩

theorem Session.Sound.run_returns (hbusy : Busy env) (h : x.Sound) (calls : List Call) :
    ∃ x', Returns (fun fuel => x.run (chip env) fuel calls) x' := by
  induction calls generalizing x with
  | nil => exact ⟨x, Returns.pure x⟩
  | cons c calls ih =>
      obtain ⟨x₁, hcall⟩ := h.call_returns hbusy c
      have hnext : x₁.Sound := by
        obtain ⟨enough, hsome⟩ := hcall
        exact h.call (hsome enough le_rfl)
      obtain ⟨x', hrest⟩ := ih hnext
      exact ⟨x', hcall.bind hrest⟩

theorem Session.sound_start {s : Sock} (h : s.Fresh) : (Session.start s).Sound := by
  obtain ⟨hcr, ⟨hsending, hok⟩, htx, hwire, ⟨hrd, hwr⟩, harrived⟩ := h
  have hzero : (s.rx.wr - s.rx.base).toNat = 0 := by
    rw [hwr, BitVec.sub_self, BitVec.toNat_zero]
  refine ⟨⟨hrd, [], ?_, harrived, ?_⟩, ?_, fun _ => ⟨hcr, ⟨hsending, hok, htx⟩, hwire⟩⟩
  · show s.rx.mem.bytes s.rx.base (s.rx.wr - s.rx.base).toNat = []
    rw [hzero]
    rfl
  · show (s.rx.wr - s.rx.base).toNat ≤ s.rx.mem.size
    rw [hzero]
    exact Nat.zero_le _
  · exact ⟨[], (List.append_nil _).trans hwire⟩

/-- **The streams through a connection.** Whatever the chip and the peer do between the accesses, the bytes
handed over are the first ones that came in, and the bytes that have gone out the first ones that were to be
sent, and all of them as long as `send` says so. If the chip goes on, every call returns. -/
theorem streams_in_order {s : Sock} (h : s.Fresh) (env : ℕ → List Event) (calls : List Call) :
    (∀ fuel x, (Session.start s).run (chip env) fuel calls = some x →
      (∃ unread, x.world.dev.rx.arrived = x.received ++ unread) ∧
        x.world.dev.tx.wire <+: x.offered ∧ (x.alive = true → x.world.dev.tx.wire = x.offered)) ∧
    (Busy env → ∃ x, Returns (fun fuel => (Session.start s).run (chip env) fuel calls) x) := by
  refine ⟨fun fuel x hrun => ?_, fun hbusy => (Session.sound_start h).run_returns hbusy calls⟩
  have hsound := (Session.sound_start h).run hrun
  obtain ⟨hrd, more, hoffers⟩ := hsound.received
  exact ⟨⟨more, hoffers.arrived⟩, hsound.sent, fun halive => (hsound.alive halive).2.2⟩

/-- `txsize` and `rxsize` give socket 0 four KiB each. -/
def fourKilobytes : Buffer := ⟨4096, fun _ => 0, ⟨16, rfl⟩, by decide⟩

/-- Socket 0 with its pointers about to wrap. -/
def socket0 : Sock where
  sr := sockEstablished
  cr := none
  tx := ⟨fourKilobytes, 0xfffe, 0xfffe, 0xfffe, false, false, []⟩
  rx := ⟨fourKilobytes, 0xffff, 0xffff, 0xffff, []⟩

theorem fresh_socket0 : socket0.Fresh := ⟨rfl, ⟨rfl, rfl⟩, rfl, rfl, ⟨rfl, rfl⟩, rfl⟩

/-- A byte arrives before each access. -/
theorem streams_in_order_socket0 :
    (∀ fuel x, (Session.start socket0).run
        (chip fun _ => [.arrive [0x02], .execute, .transmit]) fuel [.poll, .send [1, 2, 3], .poll] = some x →
      (∃ unread, x.world.dev.rx.arrived = x.received ++ unread) ∧
        x.world.dev.tx.wire <+: x.offered ∧ (x.alive = true → x.world.dev.tx.wire = x.offered)) ∧
    (Busy (fun _ => [.arrive [0x02], .execute, .transmit]) →
      ∃ x, Returns (fun fuel => (Session.start socket0).run
        (chip fun _ => [.arrive [0x02], .execute, .transmit]) fuel [.poll, .send [1, 2, 3], .poll]) x) :=
  streams_in_order fresh_socket0 _ _

end Connection

/-! ### Levels that are read while they rise -/

section Level

variable {env : ℕ → List Event} {done : List Byte}

/-- **`getSn_RX_RSR`.** Bytes may arrive between the halves. The loop ends all the same, and it returns zero
or what the level was at one moment of the call, so that no byte is read before it is there. -/
theorem rsr_read_exact (h : w.dev.Rests done) (hcr : w.dev.cr = none) :
    ∃ v w', (∀ fuel, 2 ^ 16 ≤ fuel → getSnRxRsr (chip env) fuel w = some (v, w')) ∧
      v.toNat ≤ w'.dev.rxRsr.toNat ∧
        ∃ n, w' = (chip env).turn^[n] w ∧
          (v = 0 ∨ ∃ k ≤ n, v = ((chip env).turn^[k] w).dev.rxRsr) := by
  obtain ⟨⟨v, w'⟩, hread⟩ := getSn_ends (p := chip env) rests_on rsr_mono ⟨h, hcr⟩
    (k := 2 ^ 16) (v := 0) (fun hne => absurd rfl hne) (Nat.le_add_left _ _)
  obtain ⟨n, rfl, hlevel⟩ := getSn_sound (p := chip env) rests_on rsr_mono ⟨h, hcr⟩ (hread _ le_rfl)
  exact ⟨v, _, hread, getSn_le ⟨h, hcr⟩ (hread _ le_rfl), n, rfl, hlevel⟩

theorem rests_of_fresh {s : Sock} (h : s.Fresh) : s.Rests [] := (Session.sound_start h).received

theorem rsr_read_exact_socket0 :
    ∃ v w', (∀ fuel, 2 ^ 16 ≤ fuel →
        getSnRxRsr (chip fun n => [.arrive (List.replicate n 7)]) fuel ⟨socket0, 0⟩ = some (v, w')) ∧
      v.toNat ≤ w'.dev.rxRsr.toNat ∧
        ∃ n, w' = (chip fun n => [.arrive (List.replicate n 7)]).turn^[n] ⟨socket0, 0⟩ ∧
          (v = 0 ∨ ∃ k ≤ n,
            v = ((chip fun n => [.arrive (List.replicate n 7)]).turn^[k] ⟨socket0, 0⟩).dev.rxRsr) :=
  rsr_read_exact (rests_of_fresh fresh_socket0) rfl

end Level

/-! ### The buffer of the software -/

section Overrun

/-- A buffer that is full and a peer that goes on. -/
theorem full_on {done : List Byte} (s : Sock) (e : Event)
    (hs : (s.Rests done ∧ s.cr = none) ∧ s.rxRsr.toNat = s.rx.mem.size) :
    ((s.on e).Rests done ∧ (s.on e).cr = none) ∧ (s.on e).rxRsr.toNat = (s.on e).rx.mem.size := by
  refine ⟨rests_on s e hs.1, ?_⟩
  obtain ⟨⟨⟨hrd, more, hoffers⟩, hcr⟩, hfull⟩ := hs
  cases e with
  | execute =>
      show s.execute.rxRsr.toNat = s.execute.rx.mem.size
      rw [Sock.execute, hcr]
      exact hfull
  | transmit => exact hfull
  | arrive new =>
      show ((s.rx.arrive new).wr - (s.rx.arrive new).base).toNat = (s.rx.arrive new).mem.size
      have hsame : (s.rx.arrive new).mem.size = s.rx.mem.size := by
        unfold Rx.arrive
        split_ifs <;> rfl
      obtain ⟨more', hoffers', hrise⟩ := hoffers.arrive new
      exact le_antisymm hoffers'.fits (hsame.trans hfull.symm ▸ hrise)
  | status sr => exact hfull

theorem size_on {size : ℕ} {done : List Byte} (s : Sock) (e : Event)
    (hs : (s.Rests done ∧ s.cr = none) ∧ s.rx.mem.size = size) :
    ((s.on e).Rests done ∧ (s.on e).cr = none) ∧ (s.on e).rx.mem.size = size := by
  refine ⟨rests_on s e hs.1, ?_⟩
  cases e with
  | execute =>
      show s.execute.rx.mem.size = size
      rw [Sock.execute, hs.1.2]
      exact hs.2
  | transmit => exact hs.2
  | arrive new =>
      show (s.rx.arrive new).mem.size = size
      unfold Rx.arrive
      split_ifs <;> exact hs.2
  | status sr => exact hs.2

variable {env : ℕ → List Event} {done : List Byte} {fuel : ℕ} {r : List Byte × World Sock}

/-- Not more than the chip can hold. -/
theorem poll_length (h : w.dev.Rests done) (hcr : w.dev.cr = none)
    (hpoll : poll (chip env) fuel w = some r) : r.1.length ≤ w.dev.rx.mem.size := by
  have hon (s : Sock) (e : Event) (hs : (s.Rests done ∧ s.cr = none) ∧ s.rx.mem.size = w.dev.rx.mem.size) :=
    size_on s e hs
  have hstatus := Party.turn_inv (p := chip env) hon ⟨⟨h, hcr⟩, rfl⟩
  unfold poll at hpoll
  dsimp only at hpoll
  split_ifs at hpoll
  · obtain ⟨len, hlen, hrecv⟩ := Option.bind_eq_some_iff.mp hpoll
    obtain ⟨⟨hrests, hnone⟩, hsize⟩ := getSn_inv (p := chip env) hon hstatus hlen
    have hle : len.1.toNat ≤ len.2.dev.rxRsr.toNat := getSn_le hstatus.1 hlen
    obtain ⟨-, -, hcount⟩ := recv_spec hrests hnone hle hrecv
    obtain ⟨-, more, hoffers⟩ := hrests
    rw [hcount, ← hsize]
    exact hle.trans hoffers.fits
  · obtain rfl := Option.some.inj hpoll
    exact Nat.zero_le _

/-- A full buffer is handed over whole. -/
theorem poll_full (h : w.dev.Rests done) (hcr : w.dev.cr = none)
    (hfull : w.dev.rxRsr.toNat = w.dev.rx.mem.size) (hup : w.dev.sr = sockEstablished) :
    ∃ fuel r, poll (chip fun _ => [.execute, .transmit]) fuel w = some r ∧
      r.1.length = w.dev.rx.mem.size := by
  obtain ⟨size, hsize⟩ : ∃ size, size = w.dev.rx.mem.size := ⟨_, rfl⟩
  rw [← hsize] at hfull ⊢
  obtain ⟨level, hlevel⟩ : ∃ level, level = w.dev.rxRsr := ⟨_, rfl⟩
  rw [← hlevel] at hfull
  have hbusy : Busy fun _ => [.execute, .transmit] :=
    ⟨fun n => ⟨n, le_rfl, List.mem_cons_self⟩, fun n => ⟨n, le_rfl, List.mem_cons_of_mem _ List.mem_cons_self⟩⟩
  have hne : level ≠ 0 := by
    intro hzero
    have hdivides := w.dev.rx.mem.divides
    rw [← hsize, ← hfull, hzero] at hdivides
    exact absurd hdivides (by decide)
  have hon (s : Sock) (e : Event)
      (hs : ((s.Rests done ∧ s.cr = none) ∧ s.rx.mem.size = size) ∧ s.rxRsr = level) :
      (((s.on e).Rests done ∧ (s.on e).cr = none) ∧ (s.on e).rx.mem.size = size) ∧
        (s.on e).rxRsr = level := by
    have hnext := size_on s e hs.1
    have hfull' : s.rxRsr.toNat = s.rx.mem.size := by rw [hs.2, hs.1.2, hfull]
    have hstays := (full_on s e ⟨hs.1.1, hfull'⟩).2
    exact ⟨hnext, BitVec.eq_of_toNat_eq (hstays.trans (hnext.2.trans hfull.symm))⟩
  have hstart := Party.turn_inv (p := chip fun _ => [.execute, .transmit]) hon (w := w)
    ⟨⟨⟨h, hcr⟩, hsize.symm⟩, hlevel.symm⟩
  obtain ⟨len, hlen, ⟨⟨⟨hrests, hnone⟩, -⟩, hrsr⟩, hread⟩ :=
    getSn_const (p := chip fun _ => [.execute, .transmit]) hon (fun s hs => hs.2) hne hstart
  have hstatus : ((chip fun _ => [.execute, .transmit]).turn w).dev.sr = sockEstablished := by
    show (w.dev.execute.on .transmit).sr = _
    rw [Sock.execute, hcr]
    exact hup
  obtain ⟨r, enough, hreturns⟩ := poll_returns hbusy h hcr
  have hpoll := hreturns (enough + 1) (Nat.le_succ _)
  refine ⟨enough + 1, r, hpoll, ?_⟩
  unfold poll at hpoll
  simp only [Party.read, hstatus, if_true] at hpoll
  obtain ⟨len', hlen', hrecv⟩ := Option.bind_eq_some_iff.mp hpoll
  obtain rfl : len = len' := Option.some.inj ((hread enough).symm.trans hlen')
  obtain ⟨-, -, hcount⟩ := recv_spec hrests hnone (by rw [hlen, hrsr]) hrecv
  rw [hcount, hlen, hfull]

/-- **`recv` against `buffer`.** A call of `recv` writes over the end of the 2048 bytes of `buffer` in some
run exactly if the chip has more room than that: on the sockets with four KiB, not on those with two. -/
theorem recv_overruns_iff {size : ℕ} (hdivides : size ∣ 2 ^ 16) (hsmall : size < 2 ^ 16) :
    (∃ env w done fuel r, w.dev.Rests done ∧ w.dev.cr = none ∧ w.dev.rx.mem.size = size ∧
      poll (chip env) fuel w = some r ∧ bufferSize < r.1.length) ↔ bufferSize < size := by
  constructor
  · rintro ⟨env, w, done, fuel, r, hrests, hcr, hsize, hpoll, hover⟩
    exact hsize ▸ hover.trans_le (poll_length hrests hcr hpoll)
  · intro hover
    let mem : Buffer := ⟨size, fun _ => 0, hdivides, hsmall⟩
    let rx : Rx := ⟨mem, 0, 0, BitVec.ofNat 16 size, List.replicate size 0⟩
    let w : World Sock := ⟨⟨sockEstablished, none, ⟨mem, 0, 0, 0, false, false, []⟩, rx⟩, 0⟩
    have hlevel : (rx.wr - rx.base).toNat = size := by
      show (BitVec.ofNat 16 size - 0#16).toNat = size
      rw [BitVec.sub_zero, BitVec.toNat_ofNat, Nat.mod_eq_of_lt hsmall]
    have hlive : rx.mem.bytes rx.base (rx.wr - rx.base).toNat = List.replicate size 0 := by
      rw [hlevel, List.eq_replicate_iff]
      refine ⟨Buffer.length_bytes _ _ _, fun byte hbyte => ?_⟩
      obtain ⟨j, -, rfl⟩ := List.mem_map.mp hbyte
      rfl
    have hrests : w.dev.Rests [] := ⟨rfl, List.replicate size 0, hlive, rfl, hlevel.le⟩
    obtain ⟨fuel, r, hpoll, hcount⟩ := poll_full hrests rfl hlevel rfl
    exact ⟨_, w, [], fuel, r, hrests, rfl, rfl, hpoll, hcount.symm ▸ hover⟩

theorem recv_overruns_socket0 :
    (∃ env w done fuel r, w.dev.Rests done ∧ w.dev.cr = none ∧ w.dev.rx.mem.size = 4096 ∧
      poll (chip env) fuel w = some r ∧ bufferSize < r.1.length) ↔ bufferSize < 4096 :=
  recv_overruns_iff ⟨16, rfl⟩ (by decide)

end Overrun

end W5500

end SingleScan
