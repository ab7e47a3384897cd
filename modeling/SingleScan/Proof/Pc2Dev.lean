import SingleScan.Packets

/-!
# The loop over the packets

What one turn does, and when the loop ends inside its input.
-/

namespace SingleScan

open Pc2Dev

variable {φ : Type}

/-- The commands whose handler always replies. -/
def answered : List Word :=
  [pcReqRegionData, pcReqRadarPara, pcRemoteUpdateWrite, pcRemoteUpdateRead]

/-- The replies to a command. -/
def replies (command para : Word) : ℕ :=
  if command = pcReadAlarmRegion then if para.toNat ≤ 15 then 1 else 0
  else if command ∈ answered then 1 else 0

namespace Device

/-- What holds of every command: the header and the count of packets stay, and some replies go out. -/
structure Passes (d d' : Device φ) (n : ℕ) : Prop where
  pc2nios : d'.pc2nios = d.pc2nios
  pcCommandValue : d'.nios.sysPara.word .pcCommandValue = d.nios.sysPara.word .pcCommandValue
  sent : d'.nios.sent.length = d.nios.sent.length + n

/-- The second device differs at most in the send buffer and on the stack. -/
def Buffered (d d' : Device φ) : Prop :=
  ∃ sendBuffer stack,
    d' = { d with nios := { d.nios with sendBuffer := sendBuffer }, stack := stack }

theorem Buffered.fill {d d' : Device φ} (h : Buffered d d') (offset : ℕ) (src : List Byte) :
    Buffered d (d'.fill offset src) := by
  obtain ⟨sendBuffer, stack, rfl⟩ := h
  exact ⟨_, _, rfl⟩

theorem Buffered.swap {d d' : Device φ} (h : Buffered d d') :
    Buffered d { d' with nios := { d'.nios with sendBuffer := swapBytes d'.nios.sendBuffer } } := by
  obtain ⟨sendBuffer, stack, rfl⟩ := h
  exact ⟨_, _, rfl⟩

theorem pc2devPacket_buffered (d : Device φ) : Buffered d d.pc2devPacket.1 := by
  have hstack : Buffered d { d with stack := fun n => d.stack (n + 1) } := ⟨_, _, rfl⟩
  unfold pc2devPacket
  extract_lets garbage dataLen d₁ d₂ d₃ command
  have hhead : Buffered d d₃ := (hstack.fill _ _).fill _ _
  split_ifs
  · exact (((hhead.fill _ _).fill _ _).fill _ _)
  · exact (((hhead.fill _ _).fill _ _).swap).fill _ _
  · exact (hhead.fill _ _).fill _ _
  · exact (hhead.fill _ _).fill _ _
  · exact ((hhead.fill _ _).fill _ _).fill _ _
  · exact (hhead.fill _ _).fill _ _

theorem reply_passes {d d' : Device φ} (hheader : d'.pc2nios = d.pc2nios) (hnios : d'.nios = d.nios)
    (socket : ℕ) (command dataLen : Word) : Passes d (d'.reply socket command dataLen) 1 := by
  obtain ⟨sendBuffer, stack, hpacket⟩ := pc2devPacket_buffered
    { d' with nios2pc := { d'.nios2pc with command := command, dataLen := dataLen } }
  unfold reply send
  dsimp only
  rw [hpacket]
  exact ⟨hheader, congrArg (fun nios => nios.sysPara.word .pcCommandValue) hnios,
    List.length_append.trans (congrArg (fun nios => nios.sent.length + 1) hnios)⟩

theorem loadRegionData_passes (d : Device φ) (buf : Bytes) : Passes d (d.loadRegionData buf) 0 := by
  unfold loadRegionData
  dsimp only
  split_ifs <;> exact ⟨rfl, rfl, rfl⟩

theorem member_ne_pcCommandValue (m : Setting) (para : Word) : .pcCommandValue ≠ m.member para := by
  cases m
  case apdVolSetting =>
      unfold Setting.member
      split_ifs <;> decide
  all_goals nofun

theorem change_passes (d : Device φ) (m : Setting) (para : Word) : Passes d (d.change m para) 0 := by
  unfold change
  split_ifs
  · exact ⟨rfl, SysPara.set_of_ne _ _ (member_ne_pcCommandValue m para), rfl⟩
  · exact ⟨rfl, rfl, rfl⟩

theorem readAlarmRegion_passes (d : Device φ) (socket : ℕ) (para : Word) :
    Passes d (d.readAlarmRegion socket para) (if para.toNat ≤ 15 then 1 else 0) := by
  unfold readAlarmRegion
  split_ifs
  · exact reply_passes rfl rfl socket _ _
  · exact ⟨rfl, rfl, rfl⟩

theorem ite_cases {motive : (Bytes → Device φ) → Prop} {c : Prop} [Decidable c]
    {f g : Bytes → Device φ} (hpos : c → motive f) (hneg : ¬c → motive g) :
    motive fun buf => if c then f buf else g buf := by
  by_cases h : c
  · simp only [if_pos h]
    exact hpos h
  · simp only [if_neg h]
    exact hneg h

theorem execute_cases {motive : Word → (Bytes → Device φ) → Prop} (d : Device φ)
    (driver : FlashDriver φ) (socket : ℕ) (para : Word)
    (hset : motive pcSetAlarmRegion d.setAlarmRegion)
    (hread : motive pcReadAlarmRegion fun _ => d.readAlarmRegion socket para)
    (hload : motive pcLoadRegionData d.loadRegionData)
    (hregion : motive pcReqRegionData fun _ => d.reqRegionData socket para)
    (hradar : motive pcReqRadarPara fun _ => d.reqRadarPara socket)
    (hsave : motive pcSavaSysPara fun _ =>
      { d with eeprom := saveSysPara d.eeprom d.padding d.nios.sysPara })
    (hreset : motive pcResetNios fun _ => { d with resetNios := para })
    (hsn : motive pcSetSn fun buf => d.setPara fun p => { p with devSn := fun i => buf (8 + i) })
    (htype : motive pcSetDevType fun buf =>
      d.setPara fun p => { p with devType := fun i => buf (8 + i) })
    (hdust : motive pcSetDustThreshold fun _ => d.setPara fun p => p.set .dustThreshold para)
    (hpresdo : motive laserPresdo fun buf =>
      d.setPara fun p => { p with laserPresdo := fun i => buf (8 + i) })
    (hwrite : motive pcRemoteUpdateWrite fun buf => d.remoteUpdateWrite driver socket buf)
    (himage : motive pcRemoteUpdateRead fun buf => d.remoteUpdateRead driver socket buf)
    (herase : motive pcRemoteUpdateErase fun _ => d.remoteUpdateErase driver para)
    (hchange : ∀ command m, m.command.setWidth 32 = command → command ≠ pcReadAlarmRegion →
      command ∉ answered → motive command fun _ => d.change m para)
    (hother : ∀ command, command ≠ pcReadAlarmRegion → command ∉ answered →
      motive command fun _ => d) :
    motive d.pc2nios.command fun buf => d.execute driver socket buf para := by
  unfold execute
  dsimp only
  generalize d.pc2nios.command = command
  refine ite_cases (fun h => h ▸ hset) (fun _ => ?_)
  refine ite_cases (fun h => h ▸ hread) (fun hneread => ?_)
  refine ite_cases (fun h => h ▸ hload) (fun _ => ?_)
  refine ite_cases (fun h => h ▸ hregion) (fun hneregion => ?_)
  refine ite_cases (fun h => h ▸ hradar) (fun hneradar => ?_)
  refine ite_cases (fun h => h ▸ hsave) (fun _ => ?_)
  refine ite_cases (fun h => h ▸ hreset) (fun _ => ?_)
  refine ite_cases (fun h => h ▸ hsn) (fun _ => ?_)
  refine ite_cases (fun h => h ▸ htype) (fun _ => ?_)
  refine ite_cases (fun h => h ▸ hdust) (fun _ => ?_)
  refine ite_cases (fun h => h ▸ hpresdo) (fun _ => ?_)
  refine ite_cases (fun h => h ▸ hwrite) (fun hnewrite => ?_)
  refine ite_cases (fun h => h ▸ himage) (fun hneimage => ?_)
  refine ite_cases (fun h => h ▸ herase) (fun _ => ?_)
  have hsilent : command ∉ answered := by
    simp [answered, hneregion, hneradar, hnewrite, hneimage]
  cases hfind : Setting.all.find? fun m => m.command.setWidth 32 = command with
  | some m =>
      have hcommand := List.find?_some hfind
      exact hchange command m (of_decide_eq_true hcommand) hneread hsilent
  | none => exact hother command hneread hsilent

theorem execute_passes (d : Device φ) (driver : FlashDriver φ) (socket : ℕ) (buf : Bytes)
    (para : Word) :
    Passes d (d.execute driver socket buf para) (replies d.pc2nios.command para) := by
  have hsilent : ∀ command, command ≠ pcReadAlarmRegion → command ∉ answered →
      replies command para = 0 := by
    intro command hread hanswered
    rw [replies, if_neg hread, if_neg hanswered]
  have hcases := execute_cases (motive := fun command f => Passes d (f buf) (replies command para))
    d driver socket para
  refine hcases ?_ ?_ ?_ ?_ ?_ ?_ ?_ ?_ ?_ ?_ ?_ ?_ ?_ ?_ ?_ ?_
  · exact ⟨rfl, rfl, rfl⟩
  · exact readAlarmRegion_passes d socket para
  · exact loadRegionData_passes d buf
  · exact reply_passes (by rfl) (by rfl) socket _ _
  · obtain ⟨hheader, hcount, hsent⟩ := reply_passes (d := d) rfl rfl socket niosUpRadarPara
      (BitVec.ofNat 32 sizeofSysPara)
    exact ⟨hheader, hcount, hsent⟩
  · exact ⟨rfl, rfl, rfl⟩
  · exact ⟨rfl, rfl, rfl⟩
  · exact ⟨rfl, rfl, rfl⟩
  · exact ⟨rfl, rfl, rfl⟩
  · exact ⟨rfl, rfl, rfl⟩
  · exact ⟨rfl, rfl, rfl⟩
  · unfold remoteUpdateWrite
    exact reply_passes (by rfl) (by rfl) socket _ _
  · unfold remoteUpdateRead
    exact reply_passes (by rfl) (by rfl) socket _ _
  · exact ⟨rfl, rfl, rfl⟩
  · intro command m _ hread hanswered
    rw [hsilent command hread hanswered]
    exact change_passes d m para
  · intro command hread hanswered
    rw [hsilent command hread hanswered]
    exact ⟨rfl, rfl, rfl⟩

theorem serve_dataLen (d : Device φ) (driver : FlashDriver φ) (socket : ℕ) (buf : Bytes) :
    (d.serve driver socket buf).pc2nios.dataLen = bigEndian buf 4 := by
  unfold serve
  dsimp only
  split_ifs
  · rfl
  · rw [(execute_passes _ _ _ _ _).pc2nios]
    rfl
  · rw [(execute_passes _ _ _ _ _).pc2nios]
    rfl

end Device

namespace Call

variable (board : Board φ) (socket : ℕ) (mem : Memory)

theorem turn_of_not_running {c : Call φ} (hrunning : c.running = false) :
    c.turn board socket mem = c := by
  unfold turn
  rw [hrunning]
  rfl

theorem turn_telegram {c : Call φ} (hrunning : c.running = true) (hstx : mem.at c.buf 0 = 0x02) :
    c.turn board socket mem =
      { c with
        dev := c.dev.sickProtocolProcess board.tim561 socket (mem.at c.buf) c.len
        len := 0 } := by
  unfold turn
  rw [if_pos hrunning, if_pos hstx]

theorem turn_refused {c : Call φ} (hrunning : c.running = true) (hcustom : mem.at c.buf 0 ≠ 0x02)
    (hrefused : refused (mem.at c.buf) = true) :
    c.turn board socket mem =
      { c with dev := c.dev.serve board.driver socket (mem.at c.buf), returned := true } := by
  obtain ⟨hcommand, hrange⟩ : commandOf (mem.at c.buf) = pcSetAlarmRegion ∧
      15 < (paraOf (mem.at c.buf)).toNat := by
    simpa [refused] using hrefused
  unfold turn Device.serve
  rw [if_pos hrunning, if_neg hcustom]
  dsimp only
  rw [if_pos hcommand, if_pos hrefused]
  exact (if_pos hcommand).trans (if_neg (Nat.not_le.mpr hrange))

theorem turn_served {c : Call φ} (hrunning : c.running = true) (hcustom : mem.at c.buf 0 ≠ 0x02)
    (hserved : refused (mem.at c.buf) = false) :
    c.turn board socket mem =
      { c with
        dev := c.dev.serve board.driver socket (mem.at c.buf)
        len := c.len - packetLen (mem.at c.buf)
        buf := mem.next c.buf } := by
  let d := c.dev.serve board.driver socket (mem.at c.buf)
  have hturn : c.turn board socket mem =
      { c with
        dev := d
        len := c.len - (d.pc2nios.dataLen + 12)
        buf := c.buf + (d.pc2nios.dataLen + 12) } := by
    unfold turn
    rw [if_pos hrunning, if_neg hcustom]
    by_cases hcommand : commandOf (mem.at c.buf) = pcSetAlarmRegion
    · have hrange : (paraOf (mem.at c.buf)).toNat ≤ 15 := by
        simpa [refused, hcommand] using hserved
      have hd : d = Device.execute _ board.driver socket (mem.at c.buf) (paraOf (mem.at c.buf)) :=
        (if_pos hcommand).trans (if_neg (by rw [hserved]; exact Bool.false_ne_true))
      rw [hd]
      exact (if_pos hcommand).trans (if_pos hrange)
    · have hd : d = Device.execute _ board.driver socket (mem.at c.buf) (paraOf (mem.at c.buf)) :=
        if_neg hcommand
      rw [hd]
      exact if_neg hcommand
  rw [hturn, show d.pc2nios.dataLen = _ from Device.serve_dataLen _ _ _ _]
  rfl

end Call

end SingleScan
