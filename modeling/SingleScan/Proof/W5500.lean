import SingleScan.Lib.Bits
import SingleScan.W5500

/-!
# The levels of the network chip

The levels of the buffers are read in two halves while they rise, and `getSn` reads them twice for that: what
it returns was the level.
-/

namespace SingleScan

namespace W5500

open Interleave

variable {p : Chip} {w w' : World Sock}

/-! ### Buffers -/

namespace Buffer

variable {m : Buffer} {pointer : BitVec 16} {data : List Byte} {n : ℕ}

theorem place_add (m : Buffer) (pointer : BitVec 16) (n : ℕ) :
    (pointer + BitVec.ofNat 16 n).toNat % m.size = (pointer.toNat + n) % m.size := by
  rw [BitVec.toNat_add, BitVec.toNat_ofNat, Nat.add_mod_mod, Nat.mod_mod_of_dvd _ m.divides]

theorem bytes_add (m : Buffer) (pointer : BitVec 16) (n k : ℕ) :
    m.bytes pointer (n + k) = m.bytes pointer n ++ m.bytes (pointer + BitVec.ofNat 16 n) k := by
  unfold bytes
  rw [Ring.cells_add, Ring.cells_congr (place_add m pointer n)]

theorem bytes_succ (m : Buffer) (pointer : BitVec 16) (n : ℕ) :
    m.bytes pointer (n + 1) = m.get pointer :: m.bytes (pointer + 1) n := by
  rw [Nat.add_comm n 1, bytes_add]
  rfl

theorem length_bytes (m : Buffer) (pointer : BitVec 16) (n : ℕ) : (m.bytes pointer n).length = n :=
  Ring.length_cells

/-- What goes in behind the live bytes leaves them as they are. -/
theorem bytes_put (hroom : n + data.length ≤ m.size) :
    (m.put (pointer + BitVec.ofNat 16 n) data).bytes pointer (n + data.length) =
      m.bytes pointer n ++ data := by
  unfold bytes put
  rw [Ring.put_congr (place_add m pointer n)]
  exact Ring.cells_put hroom

theorem bytes_put_self (hroom : data.length ≤ m.size) :
    (m.put pointer data).bytes pointer data.length = data := by
  have hput : (m.put (pointer + BitVec.ofNat 16 0) data).bytes pointer (0 + data.length) =
      m.bytes pointer 0 ++ data := bytes_put (by omega)
  rwa [BitVec.add_zero, Nat.zero_add] at hput

/-- Byte after byte. -/
theorem put_cons (m : Buffer) (pointer : BitVec 16) (byte : Byte) (data : List Byte) :
    (m.put pointer [byte]).put (pointer + 1) data = m.put pointer (byte :: data) := by
  have hplace := place_add m pointer 1
  unfold put
  congr 1
  exact Ring.put_congr hplace

end Buffer

/-! ### Levels -/

section Level

variable {f : Sock → BitVec 16} {I : Sock → Prop}

theorem word_halves (x : BitVec 16) : x.extractLsb' 8 8 ++ x.setWidth 8 = x := by
  apply BitVec.eq_of_getLsbD_eq
  intro i hi
  rw [BitVec.getLsbD_append, BitVec.getLsbD_setWidth, BitVec.getLsbD_extractLsb']
  split_ifs with hlow
  · rw [decide_eq_true hlow, Bool.true_and]
  · rw [decide_eq_true (by omega), Bool.true_and, Nat.add_sub_cancel' (Nat.not_lt.mp hlow)]

/-- Two halves of a rising level fit together if the upper half has not changed since. -/
theorem halves_of_rising {a b c : BitVec 16} (hab : a.toNat ≤ b.toNat) (hbc : b.toNat ≤ c.toNat)
    (hhigh : a.extractLsb' 8 8 = c.extractLsb' 8 8) : a.extractLsb' 8 8 ++ b.setWidth 8 = b := by
  have hdiv (x : BitVec 16) : (x.extractLsb' 8 8).toNat = x.toNat / 256 := by
    have hx := x.isLt
    rw [BitVec.extractLsb'_toNat, Nat.shiftRight_eq_div_pow, Nat.mod_eq_of_lt (by omega)]
  have hsame : a.toNat / 256 = c.toNat / 256 := by
    rw [← hdiv a, ← hdiv c, hhigh]
  have hmid : a.extractLsb' 8 8 = b.extractLsb' 8 8 := by
    apply BitVec.eq_of_toNat_eq
    have hlow : a.toNat / 256 ≤ b.toNat / 256 := Nat.div_le_div_right hab
    have hup : b.toNat / 256 ≤ c.toNat / 256 := Nat.div_le_div_right hbc
    rw [hdiv, hdiv]
    omega
  rw [hmid, word_halves]

theorem readWord_fst :
    (readWord p f w).1 =
      (f (p.turn w).dev).extractLsb' 8 8 ++ (f (p.turn (p.turn w)).dev).setWidth 8 := rfl

variable (hon : ∀ s e, I s → I (p.on s e))
  (hmono : ∀ s e, I s → (f s).toNat ≤ (f (p.on s e)).toNat)

include hon hmono

theorem level_mono (h : I w.dev) {k n : ℕ} (hkn : k ≤ n) :
    (f (p.turn^[k] w).dev).toNat ≤ (f (p.turn^[n] w).dev).toNat :=
  Party.turns_mono (f := fun s => (f s).toNat) hon hmono h hkn

/-- **What is read twice was the level.** -/
theorem getSn_sound {fuel : ℕ} {val v : BitVec 16} (h : I w.dev)
    (hread : getSn p f fuel val w = some (v, w')) :
    ∃ n, w' = p.turn^[n] w ∧ (v = 0 ∨ ∃ k ≤ n, v = f (p.turn^[k] w).dev) := by
  induction fuel generalizing val w with
  | zero => cases hread
  | succ fuel ih =>
      rw [getSn] at hread
      have hstep (n : ℕ) (hrec : ∃ m, w' = p.turn^[m] (p.turn^[n] w) ∧
          (v = 0 ∨ ∃ k ≤ m, v = f (p.turn^[k] (p.turn^[n] w)).dev)) :
          ∃ n, w' = p.turn^[n] w ∧ (v = 0 ∨ ∃ k ≤ n, v = f (p.turn^[k] w).dev) := by
        obtain ⟨m, hm, hv⟩ := hrec
        refine ⟨m + n, by rw [hm, Function.iterate_add_apply], hv.imp_right ?_⟩
        rintro ⟨k, hk, hval⟩
        exact ⟨k + n, Nat.add_le_add_right hk n, by rw [hval, Function.iterate_add_apply]⟩
      by_cases hne : (readWord p f w).1 = 0
      · rw [if_neg (not_not.mpr hne)] at hread
        by_cases hzero : val = 0
        · rw [if_pos hzero] at hread
          obtain ⟨rfl, rfl⟩ := Prod.mk.inj (Option.some.inj hread)
          exact ⟨2, rfl, .inl rfl⟩
        · rw [if_neg hzero] at hread
          exact hstep 2 (ih (Party.turns_inv hon h 2) hread)
      · rw [if_pos hne] at hread
        by_cases hsame : (readWord p f (readWord p f w).2).1 = (readWord p f w).1
        · simp only [hsame, if_true] at hread
          obtain ⟨hv, hw⟩ := Prod.mk.inj (Option.some.inj hread)
          have hhigh := congrArg (fun x : BitVec 16 => x.extractLsb' 8 8) hsame
          simp only [readWord_fst, Bits.extractLsb'_high] at hhigh
          have hexact := halves_of_rising (level_mono hon hmono h (k := 1) (n := 2) (by decide))
            (level_mono hon hmono h (k := 2) (n := 3) (by decide)) hhigh.symm
          exact ⟨4, hw.symm, .inr ⟨2, by decide, (hv.symm.trans hsame).trans hexact⟩⟩
        · simp only [hsame, if_false] at hread
          exact hstep 4 (ih (Party.turns_inv hon h 4) hread)

/-- A level that does not rise meanwhile is read as it is. -/
theorem readWord_still (h : I w.dev) (hstill : (f (p.turn^[2] w).dev).toNat ≤ (f w.dev).toNat) :
    (readWord p f w).1 = f w.dev := by
  have hfirst : (f (p.turn^[1] w).dev).toNat ≤ (f (p.turn^[2] w).dev).toNat :=
    level_mono hon hmono h (by decide)
  have hstart (n : ℕ) : (f w.dev).toNat ≤ (f (p.turn^[n] w).dev).toNat :=
    level_mono hon hmono h (k := 0) (Nat.zero_le n)
  have hone : f (p.turn w).dev = f w.dev :=
    BitVec.eq_of_toNat_eq (le_antisymm (hfirst.trans hstill) (hstart 1))
  have htwo : f (p.turn (p.turn w)).dev = f w.dev :=
    BitVec.eq_of_toNat_eq (le_antisymm hstill (hstart 2))
  rw [readWord_fst, hone, htwo, word_halves]

/-- **The loop ends.** Each round that goes on has seen the level rise. -/
theorem getSn_ends {k : ℕ} {v : BitVec 16} (h : I w.dev) (hval : v ≠ 0 → f w.dev ≠ 0)
    (hroom : 2 ^ 16 ≤ (f w.dev).toNat + k) : ∃ r, ∀ fuel, k ≤ fuel → getSn p f fuel v w = some r := by
  induction k generalizing v w with
  | zero => exact absurd (f w.dev).isLt (Nat.not_lt.mpr hroom)
  | succ k ih =>
      have hnext (n : ℕ) {v : BitVec 16} (hrise : (f w.dev).toNat < (f (p.turn^[n] w).dev).toNat) :
          ∃ r, ∀ fuel, k ≤ fuel → getSn p f fuel v (p.turn^[n] w) = some r := by
        refine ih (Party.turns_inv hon h n) ?_ (by omega)
        intro _ hzero
        rw [hzero] at hrise
        exact absurd hrise (Nat.not_lt_zero _)
      have hround {r : BitVec 16 × World Sock}
          (hr : ∀ fuel, k ≤ fuel → getSn p f (fuel + 1) v w = some r) :
          ∃ r, ∀ fuel, k + 1 ≤ fuel → getSn p f fuel v w = some r := by
        refine ⟨r, fun fuel hfuel => ?_⟩
        obtain ⟨fuel, rfl⟩ := Nat.exists_eq_add_of_le' (Nat.le_of_add_left_le hfuel)
        exact hr fuel (Nat.le_of_succ_le_succ hfuel)
      by_cases hne : (readWord p f w).1 = 0
      · by_cases hzero : v = 0
        · exact hround fun fuel _ => (if_neg (not_not.mpr hne)).trans (if_pos hzero)
        · obtain ⟨r, hr⟩ := hnext 2 <| Nat.lt_of_not_le fun hstill =>
            hval hzero ((readWord_still hon hmono h hstill).symm.trans hne)
          exact hround fun fuel hfuel =>
            ((if_neg (not_not.mpr hne)).trans (if_neg hzero)).trans (hr fuel hfuel)
      · by_cases hsame : (readWord p f (readWord p f w).2).1 = (readWord p f w).1
        · exact hround fun fuel _ => (if_pos hne).trans (if_pos hsame)
        · have hrise : (f w.dev).toNat < (f (p.turn^[4] w).dev).toNat := by
            refine Nat.lt_of_not_le fun hstill => hsame ?_
            have hmid : (f (p.turn^[2] w).dev).toNat ≤ (f w.dev).toNat :=
              (level_mono hon hmono h (by decide)).trans hstill
            have hlow : (f w.dev).toNat ≤ (f (p.turn^[2] w).dev).toNat :=
              level_mono hon hmono h (k := 0) (by decide)
            have hagain : (readWord p f (p.turn^[2] w)).1 = f (p.turn^[2] w).dev :=
              readWord_still hon hmono (Party.turns_inv hon h 2) (hstill.trans hlow)
            rw [readWord_still hon hmono h hmid]
            exact hagain.trans (BitVec.eq_of_toNat_eq (le_antisymm hmid hlow))
          obtain ⟨r, hr⟩ := hnext 4 hrise
          exact hround fun fuel hfuel =>
            ((if_pos hne).trans (if_neg hsame)).trans (hr fuel hfuel)

end Level

/-! ### What the driver leaves alone -/

section Frame

variable {I : Sock → Prop} {ret : ℕ × World Sock} {fuel : ℕ} {data : List Byte} {c : Command}

theorem write_inv {set : Sock → Sock} (hon : ∀ s e, I s → I (p.on s e))
    (hset : ∀ s, I s → I (set s)) (h : I w.dev) : I (p.write set w).dev :=
  hset _ (Party.turn_inv hon h)

theorem writeWord_inv {set : Sock → (BitVec 16 → BitVec 16) → Sock} {x : BitVec 16}
    (hon : ∀ s e, I s → I (p.on s e)) (hset : ∀ s f, I s → I (set s f)) (h : I w.dev) :
    I (writeWord p set x w).dev :=
  write_inv hon (fun s hs => hset s _ hs) (write_inv hon (fun s hs => hset s _ hs) h)

theorem readWord_inv {f : Sock → BitVec 16} (hon : ∀ s e, I s → I (p.on s e)) (h : I w.dev) :
    I (readWord p f w).2.dev :=
  Party.turns_inv hon h 2

theorem readWord_const {f : Sock → BitVec 16} {x : BitVec 16} (hon : ∀ s e, I s → I (p.on s e))
    (hconst : ∀ s, I s → f s = x) (h : I w.dev) : (readWord p f w).1 = x := by
  rw [readWord_fst, hconst _ (Party.turn_inv hon h), hconst _ (Party.turn_inv hon (Party.turn_inv hon h)),
    word_halves]

/-- A level that stays is read at once. -/
theorem getSn_const {f : Sock → BitVec 16} {x : BitVec 16} (hon : ∀ s e, I s → I (p.on s e))
    (hconst : ∀ s, I s → f s = x) (hne : x ≠ 0) (h : I w.dev) :
    ∃ r, r.1 = x ∧ I r.2.dev ∧ ∀ fuel, getSn p f (fuel + 1) 0 w = some r := by
  have hfirst : (readWord p f w).1 = x := readWord_const hon hconst h
  have hagain : (readWord p f (readWord p f w).2).1 = x :=
    readWord_const hon hconst (readWord_inv hon h)
  exact ⟨readWord p f (readWord p f w).2, hagain, readWord_inv hon (readWord_inv hon h), fun fuel =>
    (if_pos (hfirst.symm ▸ hne)).trans (if_pos (hagain.trans hfirst.symm))⟩

theorem getSn_inv {f : Sock → BitVec 16} {val : BitVec 16} {r : BitVec 16 × World Sock}
    (hon : ∀ s e, I s → I (p.on s e)) (h : I w.dev) (hread : getSn p f fuel val w = some r) :
    I r.2.dev := by
  induction fuel generalizing val w with
  | zero => cases hread
  | succ fuel ih =>
      rw [getSn] at hread
      have htwo := readWord_inv (f := f) hon h
      have hfour := readWord_inv (f := f) hon htwo
      by_cases hne : (readWord p f w).1 = 0
      · rw [if_neg (not_not.mpr hne)] at hread
        split_ifs at hread
        · obtain rfl := Option.some.inj hread
          exact htwo
        · exact ih htwo hread
      · rw [if_pos hne] at hread
        by_cases hsame : (readWord p f (readWord p f w).2).1 = (readWord p f w).1
        · simp only [hsame, if_true] at hread
          obtain rfl := Option.some.inj hread
          exact hfour
        · simp only [hsame, if_false] at hread
          exact ih hfour hread

/-- The wait for room only reads. -/
theorem waitFree_inv {rounds n : ℕ} (hon : ∀ s e, I s → I (p.on s e)) (h : I w.dev)
    (hwait : waitFree p fuel rounds n w = some ret) : I ret.2.dev ∧ (ret.1 = n ∨ ret.1 = 0) := by
  induction rounds generalizing w with
  | zero => cases hwait
  | succ rounds ih =>
      rw [waitFree] at hwait
      obtain ⟨freesize, hfree, hwait⟩ := Option.bind_eq_some_iff.mp hwait
      have hread := Party.turn_inv hon (getSn_inv hon h hfree)
      dsimp only at hwait
      split_ifs at hwait
      · obtain rfl := Option.some.inj hwait
        exact ⟨hread, .inr rfl⟩
      · exact ih hread hwait
      · obtain rfl := Option.some.inj hwait
        exact ⟨hread, .inl rfl⟩

theorem waitSent_inv {rounds : ℕ} {r : Bool × World Sock} (hon : ∀ s e, I s → I (p.on s e))
    (h : I w.dev) (hwait : waitSent p rounds w = some r) :
    I r.2.dev ∧ (r.1 = true → r.2.dev.tx.sendOk = true) := by
  induction rounds generalizing w with
  | zero => cases hwait
  | succ rounds ih =>
      have hir := Party.turn_inv hon h
      have hstatus := Party.turn_inv hon hir
      rw [waitSent] at hwait
      dsimp only at hwait
      split_ifs at hwait with hok hlost
      · obtain rfl := Option.some.inj hwait
        exact ⟨hir, fun _ => hok⟩
      · obtain rfl := Option.some.inj hwait
        exact ⟨hstatus, Bool.noConfusion⟩
      · exact ih hstatus hwait

theorem command_inv (hon : ∀ s e, I s → I (p.on s e)) (hset : ∀ s, I s → I { s with cr := some c })
    (h : I w.dev) (hcommand : command p c fuel w = some w') : I w'.dev ∧ w'.dev.cr = none := by
  obtain ⟨hinv, hcr⟩ := Party.wait_inv hon (write_inv hon hset h) hcommand
  exact ⟨hinv, Option.isNone_iff_eq_none.mp (Option.isSome_eq_false_iff.mp hcr)⟩

/-- The sending functions touch the transmitting half and `Sn_CR` only. -/
theorem wizWriteBuf_inv {pointer : BitVec 16} (hon : ∀ s e, I s → I (p.on s e))
    (htx : ∀ s tx, I s → I { s with tx := tx }) (h : I w.dev) :
    I (wizWriteBuf p pointer data w).dev := by
  induction data generalizing pointer w with
  | nil => exact h
  | cons byte data ih => exact ih (write_inv hon (fun s hs => htx s _ hs) h)

theorem sendDataProcessing_inv (hon : ∀ s e, I s → I (p.on s e))
    (htx : ∀ s tx, I s → I { s with tx := tx }) (h : I w.dev) :
    I (sendDataProcessing p data w).dev := by
  unfold sendDataProcessing
  split_ifs
  · exact h
  · exact writeWord_inv hon (fun s f hs => htx s _ hs)
      (wizWriteBuf_inv hon htx (readWord_inv hon h))

theorem closeSocket_inv (hon : ∀ s e, I s → I (p.on s e))
    (htx : ∀ s tx, I s → I { s with tx := tx }) (hcr : ∀ s c, I s → I { s with cr := some c })
    (h : I w.dev) (hclose : closeSocket p fuel w = some w') : I w'.dev := by
  obtain ⟨w₁, hcommand, rfl⟩ := Option.map_eq_some_iff.mp hclose
  exact write_inv hon (fun s hs => htx s _ hs) (command_inv hon (fun s hs => hcr s _ hs) h hcommand).1

theorem send_inv (hon : ∀ s e, I s → I (p.on s e)) (htx : ∀ s tx, I s → I { s with tx := tx })
    (hcr : ∀ s c, I s → I { s with cr := some c }) (h : I w.dev)
    (hsend : send p fuel data w = some ret) : I ret.2.dev := by
  obtain ⟨⟨n, w₁⟩, hfree, hsend⟩ := Option.bind_eq_some_iff.mp hsend
  obtain ⟨w₂, hcommand, hsend⟩ := Option.bind_eq_some_iff.mp hsend
  obtain ⟨⟨ok, w₃⟩, hsent, hsend⟩ := Option.bind_eq_some_iff.mp hsend
  have hready := (waitFree_inv hon h hfree).1
  have hgiven := (command_inv hon (fun s hs => hcr s _ hs) (sendDataProcessing_inv hon htx hready)
    hcommand).1
  have hdone := (waitSent_inv hon hgiven hsent).1
  cases ok with
  | true =>
      obtain rfl := Option.some.inj hsend
      exact write_inv hon (fun s hs => htx s _ hs) (write_inv hon (fun s hs => htx s _ hs) hdone)
  | false =>
      obtain ⟨w₄, hclose, rfl⟩ := Option.map_eq_some_iff.mp hsend
      exact closeSocket_inv hon htx hcr hdone hclose

/-- The receiving functions touch the receiving half and `Sn_CR` only. -/
theorem wizReadBuf_inv {a : BitVec 16} {n : ℕ} (hon : ∀ s e, I s → I (p.on s e))
    (h : I w.dev) : I (wizReadBuf p a n w).2.dev := by
  induction n generalizing a w with
  | zero => exact h
  | succ n ih => exact ih (Party.turn_inv hon h)

theorem poll_inv {r : List Byte × World Sock} (hon : ∀ s e, I s → I (p.on s e))
    (hrx : ∀ s rx, I s → I { s with rx := rx }) (hcr : ∀ s, I s → I { s with cr := some .recv })
    (h : I w.dev) (hpoll : poll p fuel w = some r) : I r.2.dev := by
  have hstatus := Party.turn_inv hon h
  unfold poll at hpoll
  dsimp only at hpoll
  split_ifs at hpoll
  · obtain ⟨len, hlen, hrecv⟩ := Option.bind_eq_some_iff.mp hpoll
    have hlevel := getSn_inv hon hstatus hlen
    unfold recv recvDataProcessing at hrecv
    split_ifs at hrecv with hpos hzero
    · exact absurd hzero hpos.ne'
    · obtain ⟨w₁, hcommand, rfl⟩ := Option.map_eq_some_iff.mp hrecv
      exact (command_inv hon hcr (writeWord_inv hon (fun s f hs => hrx s _ hs)
        (wizReadBuf_inv hon (readWord_inv hon hlevel))) hcommand).1
    · obtain rfl := Option.some.inj hrecv
      exact hlevel
  · obtain rfl := Option.some.inj hpoll
    exact hstatus

end Frame

end W5500

end SingleScan
