import SingleScan.Stream
import SingleScan.Proof.Commands
import SingleScan.Proof.Firmware

/-!
# Streams of whole packets

What is found in a stream of packets, and that it is the last one sent for a command.
-/

namespace SingleScan

open CommandModule

namespace Stream

/-- A packet as it stands in the stream. -/
structure Packet where
  head : Word
  len : Word
  data : List Word
  closing : Word
  counted : dataWords head.low len = data.length

def Packet.words (p : Packet) : List Word := p.head :: p.len :: (p.data ++ [p.closing])

/-- What the reader of the stream finds of a packet. -/
def Packet.found (p : Packet) : BitVec 16 × List Word := (p.head.low, p.data)

/-- The words are whole packets. -/
def Whole (words : List Word) (ps : List Packet) : Prop := words = ps.flatMap Packet.words

theorem packets_words (ps : List Packet) {fuel : ℕ} (hfuel : ps.length ≤ fuel) :
    packets fuel (ps.flatMap Packet.words) = ps.map Packet.found := by
  induction ps generalizing fuel with
  | nil => cases fuel <;> rfl
  | cons p ps ih =>
      obtain ⟨fuel, rfl⟩ : ∃ n, fuel = n + 1 := ⟨fuel - 1, by simp at hfuel; omega⟩
      have htake : (p.data ++ (p.closing :: ps.flatMap Packet.words)).take p.data.length = p.data := by
        simp
      have hdrop : (p.data ++ (p.closing :: ps.flatMap Packet.words)).drop (p.data.length + 1) =
          ps.flatMap Packet.words := by
        rw [List.drop_append]
        simp
      rw [List.flatMap_cons, Packet.words, List.cons_append, List.cons_append, List.append_assoc,
        List.singleton_append, packets, p.counted, htake, hdrop, ih (by simpa using hfuel)]
      rfl

theorem length_le_words (ps : List Packet) : ps.length ≤ (ps.flatMap Packet.words).length := by
  induction ps with
  | nil => exact le_refl _
  | cons p ps ih =>
      rw [List.flatMap_cons, List.length_append, List.length_cons, Packet.words, List.length_cons]
      omega

/-- The data of the last packet with a command. -/
def last (command : BitVec 16) (ps : List Packet) : Option (List Word) :=
  ((ps.filter fun p => p.head.low = command).getLast?).map Packet.data

theorem Whole.lastData {words : List Word} {ps : List Packet} (h : Whole words ps)
    (command : BitVec 16) : Stream.lastData command words = last command ps := by
  subst h
  rw [Stream.lastData, packets_words ps (length_le_words ps), last, List.filter_map,
    List.getLast?_map, Option.map_map]
  rfl

theorem last_append (command : BitVec 16) (ps qs : List Packet) :
    last command (ps ++ qs) = (last command qs).or (last command ps) := by
  unfold last
  rw [List.filter_append, List.getLast?_append]
  cases (qs.filter fun p => p.head.low = command).getLast? <;> rfl

theorem last_append_of_ne {command : BitVec 16} (ps : List Packet) {qs : List Packet}
    (hother : ∀ q ∈ qs, q.head.low ≠ command) : last command (ps ++ qs) = last command ps := by
  have hnone : (qs.filter fun p => p.head.low = command) = [] := by
    rw [List.filter_eq_nil_iff]
    intro q hq heq
    exact hother q hq (of_decide_eq_true heq)
  rw [last_append, last, hnone]
  rfl

theorem last_concat {command : BitVec 16} (ps : List Packet) {q : Packet} (hq : q.head.low = command) :
    last command (ps ++ [q]) = some q.data := by
  rw [last_append, last, List.filter_cons_of_pos (by simpa using hq)]
  rfl

theorem Whole.append {words more : List Word} {ps qs : List Packet} (h : Whole words ps)
    (hmore : Whole more qs) : Whole (words ++ more) (ps ++ qs) := by
  rw [Whole, List.flatMap_append, ← h, ← hmore]

end Stream

/-! ### The calls that send the packets -/

namespace CommandLink

/-- The command of a call. -/
def Send.command : Send → BitVec 16
  | .setLaserParamter command _ => command
  | .regionSave2fpga _ num => wrRegion num

theorem low_headCode (command : BitVec 16) : Word.low (headCode ++ command) = command := by
  rw [Word.low, BitVec.setWidth_append]
  simp

theorem Packet.dataWords_eq (p : CommandLink.Packet) (hlen : p.data.length = 1 ∨ p.command ≠ laserPseudo) :
    Stream.dataWords (Word.low (headCode ++ p.command)) (BitVec.ofNat 32 p.data.length) =
      p.data.length := by
  have hshort := p.short
  have hval : (BitVec.ofNat 32 p.data.length).toNat = p.data.length := by
    rw [BitVec.toNat_ofNat]
    omega
  rw [low_headCode, Stream.dataWords, hval]
  split_ifs with hpseudo
  · have hone := hlen.resolve_right (fun h => h hpseudo)
    omega
  · rfl

/-- The packet of a call, as the reader of the stream sees it. -/
def Send.stream (send : Send) : Stream.Packet where
  head := headCode ++ send.packet.command
  len := BitVec.ofNat 32 send.packet.data.length
  data := send.packet.data
  closing := send.packet.closing
  counted := by
    refine send.packet.dataWords_eq ?_
    cases send with
    | setLaserParamter command data => exact Or.inl rfl
    | regionSave2fpga buffer num => exact Or.inr (laserPseudo_ne_wrRegion num).symm

theorem Send.stream_low (send : Send) : send.stream.head.low = send.command := by
  refine (low_headCode _).trans ?_
  cases send <;> rfl

theorem whole_sends (sends : List Send) :
    Stream.Whole (sends.flatMap Send.words) (sends.map Send.stream) := by
  rw [Stream.Whole, List.flatMap_map]
  exact congrArg (List.flatMap · sends) (funext Send.words_eq)

/-- The packet of `write_laser_presdo`. -/
def presdoStream (arr : ℕ → BitVec 8) : Stream.Packet where
  head := 0x1234a104
  len := 30
  data := presdoWords arr
  closing := 0xccccdddd
  counted := by
    rw [presdoWords_length]
    decide

theorem whole_presdo (arr : ℕ → BitVec 8) :
    Stream.Whole (writeLaserPresdo arr) [presdoStream arr] := by
  rw [Stream.Whole, writeLaserPresdo_eq]
  rfl

end CommandLink

namespace Device

open CommandLink Pc2Dev

variable {φ : Type}

/-- The second device has sent the packets of some calls more. -/
def Sends (d d' : Device φ) (sends : List Send) : Prop :=
  d'.fpga = d.fpga ++ sends.flatMap Send.words

theorem Sends.none {d d' : Device φ} (h : d'.fpga = d.fpga) : Sends d d' [] := by
  rw [Sends, h]
  exact (List.append_nil _).symm

theorem Sends.trans {d d' d'' : Device φ} {sends more : List Send} (h : Sends d d' sends)
    (hmore : Sends d' d'' more) : Sends d d'' (sends ++ more) := by
  rw [Sends, hmore, h, List.flatMap_append, List.append_assoc]

theorem sends_setLaserParamter (d : Device φ) (command : BitVec 16) (data : Word) :
    Sends d (d.setLaserParamter command data) [.setLaserParamter command data] := by
  rw [Sends, List.flatMap_cons, List.flatMap_nil, List.append_nil]
  rfl

theorem sends_regionReadFromRom (d : Device φ) (num : Word) :
    Sends d (d.regionReadFromRom num) [d.regionSend num] := by
  rw [Sends, List.flatMap_cons, List.flatMap_nil, List.append_nil]
  exact d.regionReadFromRom_fpga num

/-- What a packet with a command makes the Nios core send: at most the register of that command, the
switch of the upload, the answer to `PC_REQ_RADAR_PARA` or, for `PC_SET_ALARM_REGION`, regions. -/
inductive Allowed (command : Word) : Send → Prop
  | setting {m : Setting} {data : Word} (hcommand : m.command.setWidth 32 = command) :
      Allowed command (.setLaserParamter m.command data)
  | upload {data : Word} : Allowed command (.setLaserParamter uploadEn data)
  | answer {data : Word} : Allowed command (.setLaserParamter 0xc000 data)
  | region {buffer : BoundaryTable} {num : Layer} (hcommand : command = pcSetAlarmRegion) :
      Allowed command (.regionSave2fpga buffer num)

/-- The second device has sent some packets more, all of them of a kind. -/
def Only (kind : Send → Prop) (d d' : Device φ) : Prop :=
  ∃ sends, Sends d d' sends ∧ ∀ send ∈ sends, kind send

section Only

variable {kind : Send → Prop} {d d' d'' : Device φ}

theorem Only.none (h : d'.fpga = d.fpga) : Only kind d d' := ⟨[], Sends.none h, nofun⟩

theorem Only.one {send : Send} (h : Sends d d' [send]) (hkind : kind send) : Only kind d d' := by
  refine ⟨[send], h, ?_⟩
  intro send' hsend
  rwa [List.mem_singleton.mp hsend]

theorem Only.trans (h : Only kind d d') (hmore : Only kind d' d'') : Only kind d d'' := by
  obtain ⟨sends, hsends, hall⟩ := h
  obtain ⟨more, hmore, hall'⟩ := hmore
  refine ⟨sends ++ more, hsends.trans hmore, ?_⟩
  intro send hsend
  exact (List.mem_append.mp hsend).elim (hall send) (hall' send)

end Only

theorem regionReadFromRom_only (d : Device φ) (num : Word) :
    Only (Allowed pcSetAlarmRegion) d (d.regionReadFromRom num) :=
  Only.one (sends_regionReadFromRom d num) (.region rfl)

theorem upload_only (command : Word) (d : Device φ) (data : Word) :
    Only (Allowed command) d (d.setLaserParamter uploadEn data) :=
  Only.one (sends_setLaserParamter d uploadEn data) .upload

theorem execute_only (d : Device φ) (driver : FlashDriver φ) (socket : ℕ) (buf : Bytes)
    (para : Word) :
    Only (Allowed d.pc2nios.command) d (d.execute driver socket buf para) := by
  have hcases := execute_cases (motive := fun command f => Only (Allowed command) d (f buf))
    d driver socket para
  refine hcases ?_ ?_ ?_ ?_ ?_ (Only.none rfl) (Only.none rfl) (Only.none rfl) (Only.none rfl)
    (Only.none rfl) (Only.none rfl) ?_ ?_ (Only.none rfl) ?_ ?_
  · unfold setAlarmRegion
    extract_lets rom d₁ num
    have hstored : Only (Allowed pcSetAlarmRegion) d d₁ := Only.none rfl
    exact ((hstored.trans (regionReadFromRom_only _ _)).trans (regionReadFromRom_only _ _)).trans
      (regionReadFromRom_only _ _)
  · unfold readAlarmRegion
    split_ifs
    · exact Only.none (reply_keeps d _ _ _).fpga
    · exact Only.none rfl
  · have hswitch := (upload_only pcLoadRegionData d disable).trans (upload_only _ _ enable)
    unfold loadRegionData
    dsimp only
    split_ifs
    · exact hswitch
    · exact hswitch
    · exact Only.none rfl
    · exact Only.none rfl
  · unfold reqRegionData
    exact Only.none (reply_keeps _ _ _ _).fpga
  · have hreply := reply_keeps d socket niosUpRadarPara (BitVec.ofNat 32 sizeofSysPara)
    have hsent : Only (Allowed pcReqRadarPara) d (d.reply socket niosUpRadarPara _) :=
      Only.none hreply.fpga
    exact hsent.trans (Only.one (sends_setLaserParamter _ 0xc000 0xaaaa) .answer)
  · unfold remoteUpdateWrite
    exact Only.none (reply_keeps _ _ _ _).fpga
  · unfold remoteUpdateRead
    exact Only.none (reply_keeps _ _ _ _).fpga
  · intro command m hcommand _ _
    unfold change
    split_ifs
    · exact Only.one (sends_setLaserParamter _ m.command para) (.setting hcommand)
    · exact Only.none rfl
  · intro command _ _
    exact Only.none rfl

theorem serve_only (d : Device φ) (driver : FlashDriver φ) (socket : ℕ) (buf : Bytes) :
    Only (Allowed (commandOf buf)) d (d.serve driver socket buf) :=
  serve_induction d driver socket buf (P := fun d' => Only (Allowed (commandOf buf)) d d')
    (Only.none rfl) (execute_only (d.entered buf) driver socket buf _)

theorem Telegram.only {d d' : Device φ} (h : Telegram d d') (command : Word) :
    Only (Allowed command) d d' := by
  rcases h.fpga with hfpga | ⟨data, hfpga⟩
  · exact Only.none hfpga
  · have hsends : Sends d d' [.setLaserParamter uploadEn data] := by
      rw [Sends, hfpga, List.flatMap_cons, List.flatMap_nil, List.append_nil]
      rfl
    exact Only.one hsends .upload

end Device

end SingleScan
