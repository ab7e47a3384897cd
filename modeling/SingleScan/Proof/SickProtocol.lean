import SingleScan.SickProtocol

/-!
# Telegrams

Which bytes `strncmp` looks at, which telegrams the table knows, and what an answer leaves as it is.
-/

namespace SingleScan

variable {φ : Type}

/-- `strncmp` looks at no byte behind the first difference. -/
theorem strncmpEq_congr {a a' b : Bytes} {n : ℕ}
    (hsame : ∀ i < n, (∀ j < i, a j = b j) → a i = a' i) :
    strncmpEq a b n = strncmpEq a' b n := by
  induction n generalizing a a' b with
  | zero => rfl
  | succ n ih =>
      have hfirst : a 0 = a' 0 := hsame 0 (by omega) (by intro j hj; omega)
      rw [strncmpEq, strncmpEq, ← hfirst]
      by_cases heq : a 0 = b 0
      · have hrest : strncmpEq (fun i => a (i + 1)) (fun i => b (i + 1)) n =
            strncmpEq (fun i => a' (i + 1)) (fun i => b (i + 1)) n := by
          refine ih ?_
          intro i hi hbefore
          refine hsame (i + 1) (by omega) ?_
          intro j hj
          cases j with
          | zero => exact heq
          | succ j => exact hbefore j (by omega)
        rw [hrest]
      · rw [beq_eq_false_iff_ne.mpr heq, Bool.false_and, Bool.false_and]

/-- Without a zero in the second string, `strncmp` compares all characters. -/
theorem strncmpEq_iff {a b : Bytes} {n : ℕ} (hnoNul : ∀ i < n, b i ≠ 0) :
    strncmpEq a b n = true ↔ ∀ i < n, a i = b i := by
  induction n generalizing a b with
  | zero => simp [strncmpEq]
  | succ n ih =>
      have hrest := ih (a := fun i => a (i + 1)) (b := fun i => b (i + 1))
        (fun i hi => hnoNul (i + 1) (by omega))
      have hzero : a 0 = b 0 → (a 0 == 0) = false := by
        intro heq
        rw [heq]
        exact beq_eq_false_iff_ne.mpr (hnoNul 0 (by omega))
      rw [strncmpEq, Bool.and_eq_true, beq_iff_eq]
      constructor
      · rintro ⟨heq, hmore⟩
        rw [hzero heq, Bool.false_or, hrest] at hmore
        intro i hi
        cases i with
        | zero => exact heq
        | succ i => exact hmore i (by omega)
      · intro hall
        refine ⟨hall 0 (by omega), ?_⟩
        rw [hzero (hall 0 (by omega)), Bool.false_or, hrest]
        exact fun i hi => hall (i + 1) (by omega)

theorem CString.byte_of_lt (s : CString) {i : ℕ} (hi : i < s.text.length) :
    s.byte i = s.text.get ⟨i, hi⟩ := by
  rw [CString.byte, dif_pos hi]

theorem CString.byte_mem (s : CString) {i : ℕ} (hi : i < s.text.length) : s.byte i ∈ s.text := by
  rw [s.byte_of_lt hi]
  exact List.get_mem _ _

/-- The entry of the table that a text is compared with. -/
theorem entry_matches_iff (s : CString) (recvCommand : Bytes) :
    strncmpEq recvCommand s.byte s.text.length = true ↔
      ∀ i < s.text.length, recvCommand i = s.byte i :=
  strncmpEq_iff fun _ hi => s.noNul _ (s.byte_mem hi)

theorem findIndex_eq_some_iff_exists (t : Tim561) (recvCommand : Bytes) (n : ℕ) :
    (findIndex t recvCommand n).isSome = true ↔
      ∃ i, (t.tim561Index i).text.length = n ∧
        ∀ j < n, recvCommand j = (t.tim561Index i).byte j := by
  rw [findIndex, List.find?_isSome]
  constructor
  · rintro ⟨i, -, hi⟩
    rw [Bool.and_eq_true, decide_eq_true_eq] at hi
    obtain ⟨hlength, hmatch⟩ := hi
    have hlength' : (t.tim561Index i).text.length = n := Int.ofNat.inj hlength
    refine ⟨i, hlength', ?_⟩
    subst hlength'
    exact (entry_matches_iff _ _).mp hmatch
  · rintro ⟨i, rfl, hmatch⟩
    refine ⟨i, List.mem_finRange i, ?_⟩
    rw [Bool.and_eq_true, decide_eq_true_eq]
    exact ⟨rfl, (entry_matches_iff _ _).mpr hmatch⟩

/-- An ETX among the characters that are compared: no entry matches. -/
theorem findIndex_eq_none (t : Tim561) {recvCommand : Bytes} {n k : ℕ} (hk : k < n)
    (hetx : recvCommand k = 0x03) : findIndex t recvCommand n = none := by
  rw [← Option.not_isSome_iff_eq_none, findIndex_eq_some_iff_exists]
  rintro ⟨i, rfl, hmatch⟩
  refine t.noEtx i _ ((t.tim561Index i).byte_mem hk) ?_
  rw [← hmatch k hk, hetx]

theorem findIndex_congr (t : Tim561) {recvCommand recvCommand' : Bytes} {n : ℕ}
    (hsame : ∀ i < n, recvCommand i = recvCommand' i) :
    findIndex t recvCommand n = findIndex t recvCommand' n := by
  unfold findIndex
  have hentry : ∀ i, strncmpEq recvCommand (t.tim561Index i).byte n =
      strncmpEq recvCommand' (t.tim561Index i).byte n :=
    fun i => strncmpEq_congr fun j hj _ => hsame j hj
  simp only [Int.toNat_natCast, hentry]

/-- A literal without an ETX is not compared beyond the ETX of a telegram. -/
theorem startsWith_congr {recvCommand recvCommand' : Bytes} {n : ℕ} {text : List Byte}
    (hsame : ∀ i ≤ n, recvCommand i = recvCommand' i) (hetx : recvCommand n = 0x03)
    (htext : 0x03 ∉ text) : startsWith recvCommand text = startsWith recvCommand' text := by
  refine strncmpEq_congr ?_
  intro i hi hbefore
  refine hsame i ?_
  by_contra hbeyond
  have hn : n < text.length := by omega
  have hcharacter : literal text n = text.get ⟨n, hn⟩ := by
    simp [literal, hn]
  refine htext ?_
  rw [← hetx, hbefore n (by omega), hcharacter]
  exact List.get_mem _ _

namespace Device

variable (d : Device φ) (t : Tim561) (socket : ℕ)

theorem sickProtocolProcess_congr {buf buf' : Bytes} {n : ℕ} {len : Word}
    (hlen : len.toInt = (n + 2 : ℕ)) (hsame : ∀ i < n + 2, buf i = buf' i)
    (hetx : buf (n + 1) = 0x03) :
    d.sickProtocolProcess t socket buf len = d.sickProtocolProcess t socket buf' len := by
  have hrecv : ∀ i ≤ n, buf (i + 1) = buf' (i + 1) := fun i hi => hsame (i + 1) (by omega)
  have hcount : len.toInt - 2 = (n : ℕ) := by omega
  have hfind : findIndex t (fun i => buf (i + 1)) n = findIndex t (fun i => buf' (i + 1)) n :=
    findIndex_congr t fun i hi => hrecv i hi.le
  have hstarts : ∀ text : List Byte, 0x03 ∉ text →
      startsWith (fun i => buf (i + 1)) text = startsWith (fun i => buf' (i + 1)) text :=
    fun text htext => startsWith_congr hrecv hetx htext
  unfold sickProtocolProcess
  dsimp only
  rw [hcount, hfind]
  cases findIndex t (fun i => buf' (i + 1)) n with
  | none => rfl
  | some pos =>
      unfold respond noteMeasurement respondLong
      rw [hstarts sMI03F4724744 (by decide), hstarts sMI2 (by decide)]
      simp only [hstarts sMI3E (by decide), hstarts sMI3F (by decide), hstarts sRIE6 (by decide),
        hstarts sRI15B (by decide), hstarts sRI1DC (by decide)]

theorem sickProtocolProcess_of_none {buf : Bytes} {len : Word}
    (hnone : findIndex t (fun i => buf (i + 1)) (len.toInt - 2) = none) :
    d.sickProtocolProcess t socket buf len = d := by
  unfold sickProtocolProcess
  dsimp only
  rw [hnone]

end Device

/-- What holds of every answer: the count of packets stays, and at least some replies go out. -/
structure Device.Tells (d d' : Device φ) (n : ℕ) : Prop where
  pcCommandValue : d'.nios.sysPara.word .pcCommandValue = d.nios.sysPara.word .pcCommandValue
  sent : d.nios.sent.length + n ≤ d'.nios.sent.length

namespace Device

variable {d d' d'' : Device φ} {m n : ℕ}

theorem Tells.trans (h : Tells d d' m) (h' : Tells d' d'' n) : Tells d d'' (m + n) where
  pcCommandValue := h'.pcCommandValue.trans h.pcCommandValue
  sent := by
    have hfirst := h.sent
    have hsecond := h'.sent
    omega

theorem Tells.refl (d : Device φ) : Tells d d 0 := ⟨rfl, le_refl _⟩

theorem sendText_tells (d : Device φ) (socket : ℕ) (s : CString) :
    Tells d (d.sendText socket s) 1 := ⟨rfl, by simp [sendText, send, Nios.send, fill]⟩

theorem sendHex_tells (d : Device φ) (socket : ℕ) (s : CString) :
    Tells d (d.sendHex socket s) 1 := ⟨rfl, by simp [sendHex, send, Nios.send, fill]⟩

theorem sendTexts_tells (d : Device φ) (socket : ℕ) (texts : List CString) :
    Tells d (d.sendTexts socket texts) texts.length := by
  induction texts generalizing d with
  | nil => exact Tells.refl d
  | cons s texts ih =>
      rw [List.length_cons, Nat.add_comm]
      exact (sendText_tells d socket s).trans (ih _)

theorem sendHexs_tells (d : Device φ) (socket : ℕ) (texts : List CString) :
    Tells d (d.sendHexs socket texts) texts.length := by
  induction texts generalizing d with
  | nil => exact Tells.refl d
  | cons s texts ih =>
      rw [List.length_cons, Nat.add_comm]
      exact (sendHex_tells d socket s).trans (ih _)

theorem Tells.mono (h : Tells d d' n) (hmn : m ≤ n) : Tells d d' m :=
  ⟨h.pcCommandValue, (Nat.add_le_add_left hmn _).trans h.sent⟩

theorem respond_tells (d : Device φ) (t : Tim561) (socket : ℕ) (recvCommand : Bytes)
    (pos : Fin 572) : Tells d (d.respond t socket recvCommand pos).1 1 := by
  unfold respond
  split_ifs with hstart hidle hmeasure hrunning hhex htext
  · exact (sendTexts_tells d socket _).mono (by simp)
  · exact (sendTexts_tells d socket _).mono (by simp)
  · exact (sendTexts_tells d socket _).mono (by simp)
  · exact sendText_tells d socket _
  · exact sendHex_tells d socket _
  · exact sendText_tells d socket _
  · exact absurd (t.answered pos) (not_or.mpr ⟨hhex, htext⟩)

theorem noteMeasurement_tells (d : Device φ) (recvCommand : Bytes) :
    Tells d (d.noteMeasurement recvCommand) 0 := by
  unfold noteMeasurement
  split_ifs <;> exact ⟨rfl, le_refl _⟩

theorem respondLong_tells (d : Device φ) (t : Tim561) (socket : ℕ) (recvCommand : Bytes) :
    Tells d (d.respondLong t socket recvCommand) 0 := by
  unfold respondLong
  split_ifs
  · exact (sendHexs_tells d socket _).mono (Nat.zero_le _)
  · exact (sendHex_tells d socket _).mono (Nat.zero_le _)
  · exact (sendHex_tells d socket _).mono (Nat.zero_le _)
  · exact Tells.refl d

theorem applyEnable_tells (d : Device φ) (enableFlag : ℕ) : Tells d (d.applyEnable enableFlag) 0 := by
  unfold applyEnable
  split_ifs <;> exact ⟨rfl, le_refl _⟩

theorem sickProtocolProcess_tells (d : Device φ) (t : Tim561) (socket : ℕ) (buf : Bytes)
    (len : Word) :
    Tells d (d.sickProtocolProcess t socket buf len)
      (if (findIndex t (fun i => buf (i + 1)) (len.toInt - 2)).isSome then 1 else 0) := by
  unfold sickProtocolProcess
  dsimp only
  cases findIndex t (fun i => buf (i + 1)) (len.toInt - 2) with
  | none =>
      rw [Option.isSome_none, if_neg Bool.false_ne_true]
      exact Tells.refl d
  | some pos =>
      rw [Option.isSome_some, if_pos rfl]
      have hanswer := respond_tells d t socket (fun i => buf (i + 1)) pos
      exact ((hanswer.trans (noteMeasurement_tells _ _)).trans (respondLong_tells _ t socket _)).trans
        (applyEnable_tells _ _)

end Device

end SingleScan
