import SingleScan.Proof.Ad5328

/-!
# The words that reach the DAC

`SYNC` goes low for one word, and sixteen falls of the clock come while it is low. A word is fixed when
the first of them is prepared: until then a later request replaces it.
-/

namespace SingleScan

open Serial

namespace Ad5328Core

/-- The word that a frame begins with in a clock. -/
def State.begun (s : State) (wrReq : Bool) (wrData : BitVec 16) : Option (BitVec 16) :=
  if s.cs = .start ∧ s.ns = .write then some (if wrReq then wrData else s.wrDataLock) else none

/-- The bits of a frame that have gone out. The clock falls behind the tenth clock of a bit. -/
def State.bitsOut (s : State) : ℕ := s.bitCnt.toNat + if 10 ≤ s.divCnt.toNat then 1 else 0

/-- The serializer and the DAC, behind the frames with the words `sent`. -/
inductive Link (s : State) (r : Sink 16) (sent : List (BitVec 16)) : Prop
  | high (cs : s.cs = .idle ∨ s.cs = .over) (sclk : s.sclk = true) (syncN : s.syncN = true)
      (dac : r = ⟨[], sent⟩)
  | start (cs : s.cs = .start) (sclk : s.sclk = true) (syncN : s.syncN = false)
      (lock : s.wrReqLock = true) (bit : s.bitCnt = 0) (div : s.divCnt = 0) (dac : r = ⟨[], sent⟩)
  | write {l : List (BitVec 16)} (cs : s.cs = .write) (syncN : s.syncN = false)
      (div : s.divCnt.toNat < 20) (bit : s.bitCnt.toNat * 20 + s.divCnt.toNat ≤ 320)
      (sclk : s.divCnt.toNat = 9 → s.sclk = true) (sclk' : 10 ≤ s.divCnt.toNat → s.sclk = false)
      (dout : 1 ≤ s.divCnt.toNat → s.dout = s.wrDataLock.getMsbD s.bitCnt.toNat)
      (words : sent = l ++ [s.wrDataLock]) (dac : r = .within s.wrDataLock s.bitsOut l)
  | ldacN {l : List (BitVec 16)} {x : BitVec 16} (cs : s.cs = .ldacN) (sclk : s.sclk = true)
      (syncN : s.syncN = false) (words : sent = l ++ [x]) (dac : r = .within x 16 l)

variable {s : State} {r : Sink 16} {sent : List (BitVec 16)} {sampling : Sampling} {wrReq : Bool}
  {wrData : BitVec 16} {handed : List (BitVec 16)}

theorem begun_of_cs (h : s.cs ≠ .start) : s.begun wrReq wrData = none :=
  if_neg fun hboth => h hboth.1

theorem begun_of_ns (h : s.ns ≠ .write) : s.begun wrReq wrData = none :=
  if_neg fun hboth => h hboth.2

theorem begun_of_start (hcs : s.cs = .start) (hns : s.ns = .write) :
    s.begun wrReq wrData = some (step s wrReq wrData).wrDataLock :=
  if_pos ⟨hcs, hns⟩

theorem pins_high (h : s.ns = .idle ∨ s.ns = .over) : (pins s).sclk = true ∧ (pins s).syncN = true := by
  rcases h with h | h <;> simp [pins, h]

/-- `SYNC` is high behind the clock. -/
theorem link_high (hns : s.ns = .idle ∨ s.ns = .over) (hwords : r.words = sent) :
    Link (step s wrReq wrData) (r.edge sampling s.wires (step s wrReq wrData).wires)
      (sent ++ (s.begun wrReq wrData).toList) := by
  have hbegun : s.begun wrReq wrData = none := begun_of_ns fun h => by simp [h] at hns
  have hpins := pins_high hns
  refine .high hns hpins.1 hpins.2 ?_
  rw [Sink.edge_high (show (step s wrReq wrData).wires.csN = true from hpins.2), hwords, hbegun]
  simp

/-- One clock of a bit. The clock falls in the tenth. -/
theorem link_bit {ws : List (BitVec 16)} (cs : s.cs = .write) (syncN : s.syncN = false)
    (div : s.divCnt.toNat < 20) (hbit : s.bitCnt.toNat < 16)
    (sclk : s.divCnt.toNat = 9 → s.sclk = true) (sclk' : 10 ≤ s.divCnt.toNat → s.sclk = false)
    (dout : 1 ≤ s.divCnt.toNat → s.dout = s.wrDataLock.getMsbD s.bitCnt.toNat)
    (words : sent = ws ++ [s.wrDataLock]) (dac : r = .within s.wrDataLock s.bitsOut ws) :
    Link (step s false wrData) (r.edge sampling s.wires (step s false wrData).wires)
      (sent ++ (s.begun false wrData).toList) := by
  have hne : s.bitCnt ≠ 16#8 := fun h => by rw [h] at hbit; exact absurd hbit (by decide)
  have hns : s.ns = .write := by simp [State.ns, cs, hne]
  have hbegun : s.begun false wrData = none := begun_of_cs (by rw [cs]; decide)
  have hlock : (step s false wrData).wrDataLock = s.wrDataLock := rfl
  have hsyncN : (step s false wrData).syncN = false := by simp [step, pins, hns, syncN]
  have hsclk : (step s false wrData).sclk = decide (s.divCnt.toNat < 9) := by simp [step, pins, hns]
  have hdout : (step s false wrData).dout = s.wrDataLock.getMsbD s.bitCnt.toNat := by
    simp [step, pins, hns, BitVec.getMsbD, hbit]
  have hquiet (h : ¬ s.wires.Falls (step s false wrData).wires) :
      r.edge sampling s.wires (step s false wrData).wires = r := Sink.edge_quiet hsyncN h
  rw [hbegun, Option.toList_none, List.append_nil]
  by_cases hlast : 19 ≤ s.divCnt.toNat
  · have hdiv' : (step s false wrData).divCnt.toNat = 0 := by simp [step, cs, hlast]
    have hbit' : (step s false wrData).bitCnt.toNat = s.bitCnt.toNat + 1 := by
      simp only [step, cs, hlast, if_true]
      exact toNat_succ rfl (by omega)
    refine .write hns hsyncN (by omega) (by omega) (by omega) (by omega) (by omega) words ?_
    rw [hquiet (Wires.not_falls_of_low (sclk' (by omega))), dac, hlock, State.bitsOut, State.bitsOut,
      hdiv', hbit', if_pos (by omega), if_neg (by omega), Nat.add_zero]
  · have hdiv' : (step s false wrData).divCnt.toNat = s.divCnt.toNat + 1 := by
      simp only [step, cs, hlast, if_true, if_false]
      exact toNat_succ rfl (by omega)
    have hbit' : (step s false wrData).bitCnt = s.bitCnt := by simp [step, cs, hlast]
    refine .write hns hsyncN (by omega) (by rw [hbit']; omega) (fun hnine => ?_) (fun hten => ?_)
      (fun _ => by rw [hdout, hbit', hlock]) words ?_
    · rw [hsclk, decide_eq_true (by omega)]
    · rw [hsclk, decide_eq_false (by omega)]
    rw [hlock, dac]
    rcases Nat.lt_trichotomy s.divCnt.toNat 9 with hlt | hnine | hgt
    · rw [← dac, hquiet (Wires.not_falls_of_high (hsclk.trans (decide_eq_true hlt))), dac, State.bitsOut,
        State.bitsOut, hdiv', hbit', if_neg (by omega), if_neg (by omega)]
    · have hfalls : s.wires.Falls (step s false wrData).wires :=
        ⟨hsyncN, sclk hnine, hsclk.trans (decide_eq_false (by omega))⟩
      have hout : s.bitsOut = s.bitCnt.toNat := by rw [State.bitsOut, if_neg (by omega), Nat.add_zero]
      have hout' : (step s false wrData).bitsOut = s.bitCnt.toNat + 1 := by
        rw [State.bitsOut, hdiv', hbit', if_pos (by omega)]
      rw [hout, hout']
      exact Sink.edge_within hbit hfalls (dout (by omega)) ((dout (by omega)).trans hdout.symm)
    · rw [← dac, hquiet (Wires.not_falls_of_low (sclk' (by omega))), dac, State.bitsOut, State.bitsOut,
        hdiv', hbit', if_pos (by omega), if_pos (by omega)]

/-- **One clock of the link.** -/
theorem Link.next (h : Link s r sent) (hquiet : s.cs = .write → wrReq = false) :
    Link (step s wrReq wrData) (r.edge sampling s.wires (step s wrReq wrData).wires)
      (sent ++ (s.begun wrReq wrData).toList) := by
  cases h with
  | high cs sclk syncN dac =>
      have hwords : r.words = sent := by rw [dac]
      rcases cs with cs | cs
      · cases hlock : s.wrReqLock with
        | false => exact link_high (.inl (by simp [State.ns, cs, hlock])) hwords
        | true =>
            have hns : s.ns = .start := by simp [State.ns, cs, hlock]
            have hsclk : (step s wrReq wrData).sclk = true := by simp [step, pins, hns, sclk]
            have hsyncN : (step s wrReq wrData).syncN = false := by simp [step, pins, hns]
            refine .start hns hsclk hsyncN (by simp [step, cs, hlock]) (by simp [step, cs])
              (by simp [step, cs]) ?_
            rw [Sink.edge_quiet hsyncN (Wires.not_falls_of_high hsclk), dac,
              begun_of_cs (by rw [cs]; decide)]
            simp
      · by_cases hten : s.stateCnt = 10#16
        · exact link_high (.inl (by simp [State.ns, cs, hten])) hwords
        · exact link_high (.inr (by simp [State.ns, cs, hten])) hwords
  | start cs sclk syncN lock bit div dac =>
      by_cases hone : s.stateCnt = 1#16
      · have hns : s.ns = .write := by simp [State.ns, cs, hone]
        have hsclk : (step s wrReq wrData).sclk = true := by simp [step, pins, hns, div]
        have hsyncN : (step s wrReq wrData).syncN = false := by simp [step, pins, hns, syncN]
        have hbit : (step s wrReq wrData).bitCnt = 0 := by simp [step, cs]
        have hdiv : (step s wrReq wrData).divCnt = 0 := by simp [step, cs]
        have hout : (step s wrReq wrData).bitsOut = 0 := by simp [State.bitsOut, hbit, hdiv]
        refine .write (l := sent) hns hsyncN (by simp [hdiv]) (by simp [hdiv, hbit]) (by simp [hdiv])
          (by simp [hdiv]) (by simp [hdiv]) ?_ ?_
        · rw [begun_of_start cs hns]
          rfl
        · rw [Sink.edge_quiet hsyncN (Wires.not_falls_of_high hsclk), hout,
            Sink.within_zero (by decide), dac]
      · have hns : s.ns = .start := by simp [State.ns, cs, hone]
        have hsclk : (step s wrReq wrData).sclk = true := by simp [step, pins, hns, sclk]
        have hsyncN : (step s wrReq wrData).syncN = false := by simp [step, pins, hns]
        refine .start hns hsclk hsyncN (by simp [step, cs, lock]) (by simp [step, cs])
          (by simp [step, cs]) ?_
        rw [Sink.edge_quiet hsyncN (Wires.not_falls_of_high hsclk), dac,
          begun_of_ns (by rw [hns]; decide)]
        simp
  | @write ws cs syncN div bit sclk sclk' dout words dac =>
      rw [hquiet cs]
      rcases Nat.lt_or_ge s.bitCnt.toNat 16 with hbit | hbit
      · exact link_bit cs syncN div hbit sclk sclk' dout words dac
      · have hall : s.bitCnt = 16#8 := BitVec.eq_of_toNat_eq (by simp; omega)
        have hout : s.bitsOut = 16 := by rw [State.bitsOut, if_neg (by omega)]; omega
        have hns : s.ns = .ldacN := by simp [State.ns, cs, hall]
        have hsclk : (step s false wrData).sclk = true := by simp [step, pins, hns]
        have hsyncN : (step s false wrData).syncN = false := by simp [step, pins, hns, syncN]
        refine .ldacN (l := ws) (x := s.wrDataLock) hns hsclk hsyncN ?_ ?_
        · rw [begun_of_cs (by rw [cs]; decide), words]
          simp
        · rw [Sink.edge_quiet hsyncN (Wires.not_falls_of_high hsclk), dac, hout]
  | @ldacN ws x cs sclk syncN words dac =>
      by_cases htwenty : s.stateCnt = 20#16
      · refine link_high (.inr (by simp [State.ns, cs, htwenty])) ?_
        rw [dac, Sink.within_full, words]
      · have hns : s.ns = .ldacN := by simp [State.ns, cs, htwenty]
        have hsclk : (step s wrReq wrData).sclk = true := by simp [step, pins, hns]
        have hsyncN : (step s wrReq wrData).syncN = false := by simp [step, pins, hns, syncN]
        refine .ldacN (l := ws) (x := x) hns hsclk hsyncN ?_ ?_
        · rw [begun_of_cs (by rw [cs]; decide), words]
          simp
        · rw [Sink.edge_quiet hsyncN (Wires.not_falls_of_high hsclk), dac]

/-- A word that waits for its frame. -/
def State.pending (s : State) : List (BitVec 16) :=
  if s.wrReqLock = true ∧ s.cs ≠ .write then [s.wrDataLock] else []

/-- The frames and the word that waits, beside the words `handed` over so far: some may have been
replaced, but not the last one. -/
structure Kept (s : State) (sent handed : List (BitVec 16)) : Prop where
  sublist : (sent ++ s.pending).Sublist handed
  last : (sent ++ s.pending).getLast? = handed.getLast?

theorem Kept.frames (h : Kept s sent handed) : sent.Sublist handed :=
  (List.sublist_append_left _ _).trans h.sublist

theorem start_of_ns (hcs : s.cs ≠ .write) (hns : s.ns = .write) : s.cs = .start := by
  unfold State.ns at hns
  cases h : s.cs <;> simp only [h] at hns hcs ⊢ <;> first | exact absurd rfl hcs | (split at hns <;> cases hns)

/-- A word comes. It waits, or its frame begins at once. -/
theorem Kept.request (h : Kept s sent handed) (hcs : s.cs ≠ .write) :
    Kept (step s true wrData) (sent ++ (s.begun true wrData).toList) (handed ++ [wrData]) := by
  have hall : sent ++ (s.begun true wrData).toList ++ (step s true wrData).pending = sent ++ [wrData] := by
    by_cases hns : s.ns = .write
    · have hpending : (step s true wrData).pending = [] := if_neg fun hboth => hboth.2 hns
      rw [begun_of_start (start_of_ns hcs hns) hns, hpending, List.append_nil]
      rfl
    · have hpending : (step s true wrData).pending = [wrData] := if_pos ⟨rfl, hns⟩
      rw [begun_of_ns hns, hpending]
      simp
  constructor
  · rw [hall]
    exact h.frames.append (List.Sublist.refl _)
  · rw [hall, List.getLast?_append, List.getLast?_append]
    rfl

/-- No word comes. -/
theorem Kept.quiet (h : Kept s sent handed) (hstart : s.cs = .start → s.wrReqLock = true) :
    Kept (step s false wrData) (sent ++ (s.begun false wrData).toList) handed := by
  have hall : (s.begun false wrData).toList ++ (step s false wrData).pending = s.pending := by
    by_cases hcs : s.cs = .write
    · have hlock : (step s false wrData).wrReqLock ≠ true := by simp [step, hcs]
      have hpending : (step s false wrData).pending = [] := if_neg fun hboth => hlock hboth.1
      rw [begun_of_cs (by rw [hcs]; decide), hpending, State.pending, if_neg fun hboth => hboth.2 hcs]
      rfl
    have hlock : (step s false wrData).wrReqLock = s.wrReqLock := by simp [step, hcs]
    by_cases hns : s.ns = .write
    · have hidle := start_of_ns hcs hns
      have hpending : (step s false wrData).pending = [] := if_neg fun hboth => hboth.2 hns
      rw [begun_of_start hidle hns, hpending, State.pending, if_pos ⟨hstart hidle, hcs⟩]
      rfl
    · rw [begun_of_ns hns, State.pending, State.pending, hlock]
      simp only [Option.toList_none, List.nil_append]
      exact if_congr (and_congr_right fun _ => iff_of_true hns hcs) rfl rfl
  constructor
  · rw [List.append_assoc, hall]
    exact h.sublist
  · rw [List.append_assoc, hall]
    exact h.last

theorem Link.lock_of_start (h : Link s r sent) (hcs : s.cs = .start) : s.wrReqLock = true := by
  cases h with
  | high cs => simp [hcs] at cs
  | start _ _ _ lock => exact lock
  | write cs => simp [hcs] at cs
  | ldacN cs => simp [hcs] at cs

theorem Link.words_sublist (h : Link s r sent) : r.words.Sublist sent := by
  cases h with
  | high _ _ _ dac => rw [dac]
  | start _ _ _ _ _ _ dac => rw [dac]
  | @write ws _ _ _ _ _ _ _ words dac =>
      rw [dac, words, Sink.within]
      split
      · exact List.Sublist.refl _
      · exact List.sublist_append_left _ _
  | ldacN _ _ _ words dac => rw [dac, words, Sink.within_full]

theorem Link.of_quiet (h : Link s r sent) (hquiet : Quiet s) : r = ⟨[], sent⟩ := by
  cases h with
  | high _ _ _ dac => exact dac
  | start cs => simp [hquiet.cs] at cs
  | write cs => simp [hquiet.cs] at cs
  | ldacN cs => simp [hquiet.cs] at cs

theorem pending_of_quiet (hquiet : Quiet s) : s.pending = [] :=
  if_neg fun hboth => Bool.noConfusion (hquiet.lock.symm.trans hboth.1)

end Ad5328Core

namespace Ad5328Dac

open Clocked Ad5328Core

variable {sampling : Sampling} {s : State} {i : Ad5328Top.Input} {log : List (BitVec 16)}

/-- The driver, the serializer and the DAC behind the words in `log`. -/
structure Inv (s : State) (log : List (BitVec 16)) : Prop where
  reached : Ad5328Top.Reached s.top
  frames : ∃ sent, Link s.top.core s.dac sent ∧ Kept s.top.core sent log

theorem inv_reset (s : Ad5328Top.State) : Inv (.reset s) [] where
  reached := Ad5328Top.reached_reset s
  frames := ⟨[], .high (.inl rfl) rfl rfl rfl, List.Sublist.refl _, rfl⟩

/-- The driver does not disturb a frame. -/
theorem wrReq_of_write {s : Ad5328Top.State} (h : Ad5328Top.Reached s) (hcs : s.core.cs = .write) :
    s.drive.wrReq = false := by
  cases h with
  | cold _ _ wrReq => exact wrReq
  | warm _ _ wrReq => exact wrReq
  | wait _ wrReq => exact wrReq
  | @busy ahead few _ _ wrReq core =>
      rw [Bool.eq_false_iff, ne_eq, wrReq]
      intro hwhen
      generalize hm : s.drive.stateCnt.toNat + ahead = m at core
      cases core with
      | before _ quiet => exact Ad5328Core.Phase.noConfusion (hcs.symm.trans quiet.cs)
      | after _ quiet => exact Ad5328Core.Phase.noConfusion (hcs.symm.trans quiet.cs)
      | locked cs => simp [hcs] at cs
      | start _ cs => simp [hcs] at cs
      | ldacN _ cs => simp [hcs] at cs
      | finish _ cs => simp [hcs] at cs
      | write => omega

theorem inv_step (h : Inv s log) :
    Inv (step sampling s i) (log ++ s.top.handed.toList) := by
  obtain ⟨hreached, sent, hlink, hkept⟩ := h
  refine ⟨Ad5328Top.reached_step hreached i, _, hlink.next (wrReq_of_write hreached), ?_⟩
  change Kept (Ad5328Core.step s.top.core s.top.drive.wrReq s.top.drive.wrData) _ _
  cases hreq : s.top.drive.wrReq with
  | false =>
      rw [Ad5328Top.State.handed, hreq, if_neg Bool.false_ne_true, Option.toList_none, List.append_nil]
      exact hkept.quiet hlink.lock_of_start
  | true =>
      rw [Ad5328Top.State.handed, if_pos hreq]
      exact hkept.request fun hcs =>
        Bool.noConfusion ((wrReq_of_write hreached hcs).symm.trans hreq)

/-! ### Runs from power-up -/

def run (sampling : Sampling) (s : Ad5328Top.State) (input : ℕ → Ad5328Top.Input) (t : ℕ) : State :=
  trace (step sampling) (.reset s) input t

/-- The words that the driver has handed over before clock `t`. -/
def handed (s : Ad5328Top.State) (input : ℕ → Ad5328Top.Input) (t : ℕ) : List (BitVec 16) :=
  logged Ad5328Top.step s.reset input (fun s _ => s.handed) 0 t

variable {input : ℕ → Ad5328Top.Input} {p : ℕ} {v : BitVec 16}

theorem run_top (sampling : Sampling) (s : Ad5328Top.State) (input : ℕ → Ad5328Top.Input) (t : ℕ) :
    (run sampling s input t).top = Ad5328Top.run s input t :=
  trace_component State.top (fun _ i => i) (fun _ _ => rfl) t

theorem inv_run (sampling : Sampling) (s : Ad5328Top.State) (input : ℕ → Ad5328Top.Input) (t : ℕ) :
    Inv (run sampling s input t) (handed s input t) := by
  induction t with
  | zero => exact inv_reset s
  | succ t ih =>
      have hlog : handed s input (t + 1) =
          handed s input t ++ (run sampling s input t).top.handed.toList := by
        rw [run_top, handed, logged_succ, Nat.zero_add]
        rfl
      rw [hlog]
      exact inv_step ih

/-- Every word is one that was handed over. Once the driver waits, the frame is over and the DAC has the
last word. -/
structure Delivered (dac : Sink 16) (handed : List (BitVec 16)) (waits : Prop) : Prop where
  sublist : dac.words.Sublist handed
  bits : waits → dac.bits = []
  last : waits → dac.words.getLast? = handed.getLast?

/-- **The words of the driver reach the DAC.** -/
theorem dac_words (sampling : Sampling) (s : Ad5328Top.State) (input : ℕ → Ad5328Top.Input) (t : ℕ) :
    Delivered (run sampling s input t).dac (handed s input t)
      ((Ad5328Top.run s input t).drive.cs = .wait) := by
  obtain ⟨hreached, sent, hlink, hkept⟩ := inv_run sampling s input t
  have hquiet (hwait : (Ad5328Top.run s input t).drive.cs = .wait) :
      Quiet (run sampling s input t).top.core := by
    rw [← run_top sampling] at hwait
    exact (hreached.of_wait hwait).2
  constructor
  · exact hlink.words_sublist.trans hkept.frames
  · intro hwait
    rw [hlink.of_quiet (hquiet hwait)]
  · intro hwait
    have hlast := hkept.last
    rw [pending_of_quiet (hquiet hwait), List.append_nil] at hlast
    rw [hlink.of_quiet (hquiet hwait), hlast]

/-- What the clock behind the last request foresaw is in the DAC once the driver waits again. -/
theorem dac_settled (sampling : Sampling) (s : Ad5328Top.State) (h : Ad5328Top.LastRequest input p v)
    (n : ℕ) (hn : (Ad5328Top.run s input (p + 1)).remaining ≤ n) :
    (run sampling s input (p + 1 + n + 1)).dac.words.getLast? =
      some ((Ad5328Top.run s input (p + 1)).outlook v) := by
  have hwait : (Ad5328Top.run s input (p + 1 + (n + 1))).drive.cs = .wait := by
    refine Ad5328Top.wait_of_remaining (Ad5328Top.reached_run s _) ?_
    rw [Ad5328Top.remaining_run h s (n + 1)]
    omega
  exact ((dac_words sampling s input (p + 1 + n + 1)).last hwait).trans
    (Ad5328Top.lastHanded_settled h s n hn)

/-- **The last request at the DAC.** It stays there exactly if the driver waited for it, or would have
ended with the same word. -/
theorem dac_last_iff (sampling : Sampling) (s : Ad5328Top.State) (h : Ad5328Top.LastRequest input p v) :
    (∃ T, ∀ t, T ≤ t → (run sampling s input t).dac.words.getLast? = some v) ↔
      (Ad5328Top.run s input p).drive.cs = .wait ∨ (Ad5328Top.run s input p).outlook v = v := by
  have houtlook : (Ad5328Top.run s input (p + 1)).outlook v = v ↔
      (Ad5328Top.run s input p).drive.cs = .wait ∨ (Ad5328Top.run s input p).outlook v = v := by
    rw [Ad5328Top.outlook_pulse h s]
    by_cases hcs : (Ad5328Top.run s input p).drive.cs = .wait <;> simp [hcs]
  rw [← houtlook]
  constructor
  · rintro ⟨T, hT⟩
    have hlast := dac_settled sampling s h ((Ad5328Top.run s input (p + 1)).remaining + T) (by omega)
    rw [hT _ (by omega)] at hlast
    exact (Option.some.inj hlast).symm
  · intro hout
    refine ⟨p + 1 + (Ad5328Top.run s input (p + 1)).remaining + 1, fun t ht => ?_⟩
    obtain ⟨n, rfl⟩ : ∃ n, t = p + 1 + n + 1 := ⟨t - p - 2, by omega⟩
    rw [dac_settled sampling s h n (by omega), hout]

/-- Without a request the driver waits after 1604 clocks at the latest. -/
theorem waits_of_quiet (s : Ad5328Top.State) {n : ℕ} (hn : 1604 ≤ n)
    (hquiet : ∀ u, p ≤ u → u < p + n → (input u).dacSet = false) :
    (Ad5328Top.run s input (p + n)).drive.cs = .wait := by
  have hremaining : ∀ m ≤ n, (Ad5328Top.run s input (p + m)).remaining ≤ 1604 - m := by
    intro m
    induction m with
    | zero =>
        intro _
        unfold Ad5328Top.State.remaining
        split <;> omega
    | succ m ih =>
        intro hm
        have hstep : (Ad5328Top.run s input (p + (m + 1))).remaining =
            (Ad5328Top.run s input (p + m)).remaining - 1 :=
          Ad5328Top.remaining_step (Ad5328Top.reached_run s (p + m))
            (hquiet (p + m) (by omega) (by omega))
        have hbound := ih (by omega)
        omega
  refine Ad5328Top.wait_of_remaining (Ad5328Top.reached_run s _) ?_
  have hbound := hremaining n le_rfl
  omega

section Accepted

variable {stop : ℕ} (s : Ad5328Top.State) (hwait : (Ad5328Top.run s input p).drive.cs = .wait)
  (hset : (input p).dacSet = true) (hquiet : ∀ u, p < u → u < stop → (input u).dacSet = false)
  (hheld : ∀ u, p ≤ u → u < stop → (input u).dacValue = v)

include hwait hset hquiet hheld

theorem outlook_accepted (n : ℕ) (hstop : p + 1 + n ≤ stop) :
    (Ad5328Top.run s input (p + 1 + n)).outlook v = v ∧
      (Ad5328Top.run s input (p + 1 + n)).remaining ≤ 801 - n := by
  induction n with
  | zero =>
      refine ⟨Ad5328Top.outlook_accepted (Ad5328Top.reached_run s p) hwait hset, ?_⟩
      change (Ad5328Top.step (Ad5328Top.run s input p) (input p)).remaining ≤ 801
      cases (Ad5328Top.reached_run s p).moves (input p) with
      | accepts _ _ cs' cnt' => rw [Ad5328Top.State.remaining, cs', cnt']
      | wakes cs => exact Ad5328Drive.Phase.noConfusion (hwait.symm.trans cs)
      | configures cs => exact Ad5328Drive.Phase.noConfusion (hwait.symm.trans cs)
      | writes cs => exact (hwait ▸ cs : Ad5328Top.Writes .wait).elim
      | ends cs => exact (hwait ▸ cs : Ad5328Top.Writes .wait).elim
      | waits _ quiet => exact Bool.noConfusion (hset.symm.trans quiet)
  | succ n ih =>
      obtain ⟨hout, hremaining⟩ := ih (by omega)
      have hreached : Ad5328Top.Reached (Ad5328Top.run s input (p + 1 + n)) := Ad5328Top.reached_run s _
      have hlow := hquiet (p + 1 + n) (by omega) (by omega)
      constructor
      · exact (Ad5328Top.outlook_step hreached (hheld _ (by omega) (by omega)) fun _ => hlow).trans hout
      · have hstep : (Ad5328Top.run s input (p + 1 + (n + 1))).remaining =
            (Ad5328Top.run s input (p + 1 + n)).remaining - 1 :=
          Ad5328Top.remaining_step hreached hlow
        omega

/-- A request that the driver waited for, up to the next one. -/
theorem dac_accepted (sampling : Sampling) {t : ℕ} (hlate : p + 804 ≤ t) (hstop : t ≤ stop) :
    (run sampling s input t).dac.words.getLast? = some v := by
  obtain ⟨n, rfl⟩ : ∃ n, t = p + 1 + n + 1 := ⟨t - p - 2, by omega⟩
  obtain ⟨hout, hremaining⟩ := outlook_accepted s hwait hset hquiet hheld n (by omega)
  obtain ⟨-, hremaining'⟩ := outlook_accepted s hwait hset hquiet hheld (n + 1) (by omega)
  have hwait' : (Ad5328Top.run s input (p + 1 + n)).drive.cs = .wait :=
    Ad5328Top.wait_of_remaining (Ad5328Top.reached_run s _) (by omega)
  have hwait'' : (Ad5328Top.run s input (p + 1 + (n + 1))).drive.cs = .wait :=
    Ad5328Top.wait_of_remaining (Ad5328Top.reached_run s _) (by omega)
  have hlast : Ad5328Top.lastHanded s input (p + 1 + n + 1) = some v := by
    have hlog : (Ad5328Top.run s input (p + 1 + n)).Fresh ∨ _ := Ad5328Top.lastHanded_run s _
    rcases hlog with hfresh | hlast
    · simp [Ad5328Top.State.Fresh, hwait'] at hfresh
    · rw [Ad5328Top.State.outlook, hwait'] at hout
      exact hlast.trans (congrArg some hout)
  exact ((dac_words sampling s input (p + 1 + n + 1)).last hwait'').trans hlast

end Accepted

/-- A DAC that samples what is there before the edge. -/
def early : Sampling := ⟨fun before _ => before, fun _ => rfl⟩

theorem dac_last_pulse :
    ∃ T, ∀ t, T ≤ t → (run early Ad5328Top.dark (Ad5328Top.pulse 1604 0x0fff) t).dac.words.getLast? =
      some 0x0fff :=
  (dac_last_iff early Ad5328Top.dark (Ad5328Top.lastRequest_pulse 1604 0x0fff)).2
    (.inl (Ad5328Top.wait_pulse _))

end Ad5328Dac

end SingleScan
