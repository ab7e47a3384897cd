import SingleScan.Proof.Fpga2NiosProtocol
import SingleScan.MainLoop

/-!
# What the receive loop hands to the parser

The loop takes any word whose low half is `0xeeee` for the end of a frame. Over frames whose payload
has no such word, each turn leaves a part of one frame in the queue and each call of the parser finds
exactly one complete frame, however the turns cut the stream. The first payload word with that low
half makes the parser run the queue dry.
-/

namespace SingleScan

open Fpga2Nios Nios

@[simp]
theorem readFpgaData_eq (w : Word) : readFpgaData w = w := swapHalves_mapAvalonmmToAvalonst w

/-! ### The inner loop -/

section RecvLoop

variable {queue : Queue} {ws : List Word}

theorem recvLoop_append (h : queue.Valid) (hplain : ∀ w ∈ ws, w.low ≠ 0xeeee)
    (hroom : queue.contents.length + ws.length < queue.depth.toNat) (rest : List Word) :
    ∃ queue' : Queue, recvLoop (ws ++ rest) queue = recvLoop rest queue' ∧ queue'.Valid ∧
      queue'.contents = queue.contents ++ ws ∧ queue'.depth = queue.depth ∧
      queue'.frameOverFlag = queue.frameOverFlag := by
  induction ws generalizing queue with
  | nil => exact ⟨queue, rfl, h, by simp, rfl, rfl⟩
  | cons w ws ih =>
      rw [List.length_cons] at hroom
      have hfull : queueIsFull queue = false := Queue.not_isFull_of_length h (by omega)
      have hlow : w.low ≠ 0xeeee := hplain w List.mem_cons_self
      have hcontents := Queue.contents_push h hfull w
      obtain ⟨queue', hloop, hvalid, hcontents', hdepth, hflag⟩ :=
        ih (Queue.valid_push h w) (fun w' hw' => hplain w' (List.mem_cons_of_mem w hw'))
          (by rw [hcontents, List.length_append, List.length_singleton]
              exact (show _ = _ by omega).trans_lt hroom)
      refine ⟨queue', ?_, hvalid, ?_, hdepth, hflag⟩
      · rw [List.cons_append, recvLoop]
        simp only [hfull, readFpgaData_eq, Bool.false_eq_true, if_false, if_neg hlow]
        exact hloop
      · rw [hcontents', hcontents, List.append_assoc, List.singleton_append]

/-- A word that ends a frame is appended and stops the loop. -/
theorem recvLoop_last (h : queue.Valid) {last : Word} (hlast : last.low = 0xeeee)
    (hroom : queue.contents.length + 1 < queue.depth.toNat) (rest : List Word) :
    ∃ queue' : Queue, recvLoop (last :: rest) queue = (queue', rest) ∧ queue'.Valid ∧
      queue'.contents = queue.contents ++ [last] ∧ queue'.depth = queue.depth ∧
      queue'.frameOverFlag = 0x01 := by
  have hfull : queueIsFull queue = false := Queue.not_isFull_of_length h hroom
  have hcontents := Queue.contents_push h hfull last
  have hvalid := Queue.valid_push h last
  refine ⟨{ queuePush queue last with frameOverFlag := 0x01 }, ?_,
    ⟨hvalid.depth_le, hvalid.two_le, hvalid.front_lt, hvalid.rear_lt⟩, hcontents, rfl, rfl⟩
  simp [recvLoop, hfull, hlast]

/-- Whatever arrives, the loop ends behind a word `0x….eeee` or without the flag. -/
theorem recvLoop_hands (h : queue.Valid) (fifo : List Word) :
    (recvLoop fifo queue).1.Valid ∧ (recvLoop fifo queue).1.depth = queue.depth ∧
      ((recvLoop fifo queue).1.frameOverFlag = queue.frameOverFlag ∨
        (recvLoop fifo queue).1.frameOverFlag = 0x01 ∧
          ∃ ws last, (recvLoop fifo queue).1.contents = ws ++ [last] ∧ last.low = 0xeeee) := by
  induction fifo generalizing queue with
  | nil => exact ⟨h, rfl, .inl rfl⟩
  | cons w fifo ih =>
      obtain ⟨cleared, hcleared, hvalid, hroom, hdepth, hflag⟩ : ∃ cleared : Queue,
          (if queueIsFull queue then queueClear queue else queue) = cleared ∧ cleared.Valid ∧
            queueIsFull cleared = false ∧ cleared.depth = queue.depth ∧
            cleared.frameOverFlag = queue.frameOverFlag := by
        by_cases hfull : queueIsFull queue = true
        · refine ⟨queueClear queue, if_pos hfull, Queue.valid_clear h, ?_, rfl, rfl⟩
          apply Queue.not_isFull_of_length (Queue.valid_clear h)
          rw [Queue.contents_clear h]
          exact h.two_le
        · exact ⟨queue, if_neg hfull, h, by simpa using hfull, rfl, rfl⟩
      have hpush := Queue.valid_push hvalid w
      simp only [recvLoop, hcleared, readFpgaData_eq]
      by_cases hlow : w.low = 0xeeee
      · rw [if_pos hlow]
        exact ⟨⟨hpush.depth_le, hpush.two_le, hpush.front_lt, hpush.rear_lt⟩, hdepth,
          .inr ⟨rfl, cleared.contents, w, Queue.contents_push hvalid hroom w, hlow⟩⟩
      · rw [if_neg hlow]
        obtain ⟨hvalid', hdepth', hhands⟩ := ih hpush
        exact ⟨hvalid', hdepth'.trans hdepth, hhands.imp_left fun heq => heq.trans hflag⟩

end RecvLoop

/-! ### The sessions -/

/-- The memory between two turns. -/
structure Session.Between (s : Session) : Prop where
  sound : Sound s.nios 2048
  flag : s.nios.laserDataQueue.frameOverFlag = 0x00

theorem between_start (nios : Nios) (words : List Word) :
    (Session.start nios words).Between :=
  ⟨⟨Queue.valid_init _ (by decide) (by decide), rfl⟩, rfl⟩

section Turns

variable {s : Session} {queue : Queue} {left : List Word} {turn : Turn}

/-- The memory in which a turn calls the parser. -/
def Session.handed (s : Session) (queue : Queue) : Nios :=
  { s.nios with laserDataQueue := queue, pops := [], overrun := false }

/-- A turn that reads the end of a frame calls the parser. -/
theorem turn_of_flag (hloop : recvLoop (s.unread.take turn.budget) s.nios.laserDataQueue =
      (queue, left)) (hflag : queue.frameOverFlag = 0x01) :
    (s.turn turn).reports = s.reports ++ [⟨s.handed queue, (s.handed queue).fpga2niosParse⟩] ∧
      (s.turn turn).unread = left ++ s.unread.drop turn.budget ∧
      (s.turn turn).nios.laserDataQueue =
        { (s.handed queue).fpga2niosParse.laserDataQueue with frameOverFlag := 0x00 } := by
  have hturn : s.turn turn =
      { nios := turn.rest
          { (s.handed queue).fpga2niosParse with
            laserDataQueue :=
              { (s.handed queue).fpga2niosParse.laserDataQueue with frameOverFlag := 0x00 } }
        unread := left ++ s.unread.drop turn.budget
        reports := s.reports ++ [⟨s.handed queue, (s.handed queue).fpga2niosParse⟩] } := by
    simp only [Session.turn, hloop]
    exact if_pos hflag
  rw [hturn]
  exact ⟨rfl, rfl, turn.keeps _⟩

theorem turn_of_no_flag (hloop : recvLoop (s.unread.take turn.budget) s.nios.laserDataQueue =
      (queue, left)) (hflag : queue.frameOverFlag ≠ 0x01) :
    (s.turn turn).reports = s.reports ∧
      (s.turn turn).unread = left ++ s.unread.drop turn.budget ∧
      (s.turn turn).nios.laserDataQueue = queue := by
  have hturn : s.turn turn =
      { nios := turn.rest (s.handed queue)
        unread := left ++ s.unread.drop turn.budget
        reports := s.reports } := by
    simp only [Session.turn, hloop]
    exact if_neg hflag
  rw [hturn]
  exact ⟨rfl, rfl, turn.keeps _⟩

theorem between_of_sound {nios : Nios} (h : Sound nios 2048)
    (hqueue : s.nios.laserDataQueue = { nios.laserDataQueue with frameOverFlag := 0x00 }) :
    s.Between := by
  refine ⟨⟨?_, ?_⟩, ?_⟩ <;> rw [hqueue]
  · exact ⟨h.valid.depth_le, h.valid.two_le, h.valid.front_lt, h.valid.rear_lt⟩
  · exact h.depth

/-- A call of the parser over a queue that ends in `0x….eeee`. -/
structure Report.Handed (r : Report) : Prop where
  after : r.after = r.before.fpga2niosParse
  overrun : r.before.overrun = false
  holds : ∃ ws last, Holds r.before (ws ++ [last]) [] ∧ last.low = 0xeeee

/-- Every call of the parser in a turn is one over such a queue. -/
theorem turn_between (h : s.Between) (turn : Turn) :
    (s.turn turn).Between ∧ ∀ r ∈ (s.turn turn).reports, r ∈ s.reports ∨ r.Handed := by
  obtain ⟨hvalid, hdepth, hhands⟩ :=
    recvLoop_hands h.sound.valid (s.unread.take turn.budget)
  rw [h.sound.depth] at hdepth
  rcases hhands with hflag | ⟨hflag, ws, last, hcontents, hlast⟩
  · rw [h.flag] at hflag
    obtain ⟨hreports, _, hqueue⟩ := turn_of_no_flag rfl (by rw [hflag]; decide)
    refine ⟨⟨⟨?_, ?_⟩, ?_⟩, fun r hr => .inl (hreports ▸ hr)⟩ <;> rw [hqueue]
    · exact hvalid
    · exact hdepth
    · exact hflag
  · obtain ⟨hreports, _, hqueue⟩ := turn_of_flag rfl hflag
    have hhanded : Sound (s.handed (recvLoop (s.unread.take turn.budget)
        s.nios.laserDataQueue).1) 2048 := ⟨hvalid, hdepth⟩
    refine ⟨between_of_sound hhanded.fpga2niosParse hqueue, fun r hr => ?_⟩
    rw [hreports, List.mem_append, List.mem_singleton] at hr
    rcases hr with hr | rfl
    · exact .inl hr
    · exact .inr ⟨rfl, rfl, ws, last, ⟨hvalid, hcontents, rfl⟩, hlast⟩

theorem run_between (h : s.Between) (turns : List Turn) :
    (s.run turns).Between ∧ ∀ r ∈ (s.run turns).reports, r ∈ s.reports ∨ r.Handed := by
  induction turns generalizing s with
  | nil => exact ⟨h, fun r hr => .inl hr⟩
  | cons turn turns ih =>
      obtain ⟨hbetween, hreports⟩ := turn_between h turn
      obtain ⟨hdone, hall⟩ := ih hbetween
      refine ⟨hdone, fun r hr => ?_⟩
      rcases hall r hr with hr' | hhanded
      · exact hreports r hr'
      · exact .inr hhanded

end Turns

theorem Report.Handed.inside_iff {r : Report} (h : r.Handed) :
    Inside r.before r.after ↔ oversized r.before.laserDataQueue.contents = false := by
  obtain ⟨hafter, hover, ws, last, hholds, hlast⟩ := h
  rw [hafter, hholds.contents]
  exact parse_inside_iff hholds hlast hover

theorem handed_of_mem {nios : Nios} {words : List Word} {turns : List Turn} {r : Report}
    (hr : r ∈ ((Session.start nios words).run turns).reports) : r.Handed := by
  rcases (run_between (between_start nios words) turns).2 r hr with hstart | hhanded
  · exact absurd hstart (by simp [Session.start])
  · exact hhanded

/-- **The arrays of a distance frame.** A call of the parser writes inside them exactly when the first
frame in the queue does not claim to be a distance frame of more than 811 words. -/
theorem parser_inside_iff (nios : Nios) (words : List Word) (turns : List Turn) (r : Report)
    (hr : r ∈ ((Session.start nios words).run turns).reports) :
    Inside r.before r.after ↔ oversized r.before.laserDataQueue.contents = false :=
  (handed_of_mem hr).inside_iff

/-- Memory that is all zero. -/
def zeroed : Nios where
  sysPara :=
    { updatePosFlag := false, word := fun _ => 0, niosVer := fun _ => 0, fpgaVer := fun _ => 0
      devType := fun _ => 0, devPn := fun _ => 0, devSn := fun _ => 0, laserPresdo := fun _ => 0
      xxx1 := 0, xxx2 := 0 }
  sysWarn :=
    { motorLowSpeedAlarm := 0, ldNotWorkAlarm := 0, windowDustAlarm := 0, tempOutAlarm := 0
      regionAlarm := 0, len := 0, motorCycleCnt := fun _ => 0, zeroValue := fun _ => 0
      dustCnt := fun _ => 0, tempValue := fun _ => 0 }
  cycleData :=
    { posFinish := false, distanceLen := 0, grayLen := 0, distanceData := fun _ => 0
      grayData := fun _ => 0 }
  fpga2niosData := { frameHead := 0, command := 0, dataLen := 0, checksum := 0 }
  laserDataQueue := queueInit (fun _ => 0) 2048
  sendBuffer := fun _ => 0
  sent := []
  pops := []
  overrun := false

/-- A turn that does nothing but receive. -/
def receiving (budget : ℕ) : Turn := ⟨budget, id, fun _ => rfl⟩

/-- What the parser finds in the queue in the session of one turn over `words`. -/
def foundContents (words : List Word) : List (List Word) :=
  ((Session.start zeroed words).run [receiving words.length]).reports.map fun r =>
    r.before.laserDataQueue.contents

theorem exists_report {words : List Word} (hfound : foundContents words = [words]) :
    ∃ r ∈ ((Session.start zeroed words).run [receiving words.length]).reports,
      r.before.laserDataQueue.contents = words := by
  have hmem : words ∈ foundContents words := by rw [hfound]; exact List.mem_singleton_self words
  obtain ⟨r, hr, hcontents⟩ := List.mem_map.mp hmem
  exact ⟨r, hr, hcontents⟩

theorem parser_inside_short :
    ∃ r ∈ ((Session.start zeroed [0x1234a003, 2, 0x00210005, 0x0022eeee]).run
      [receiving 4]).reports, Inside r.before r.after := by
  have hfound : foundContents [0x1234a003, 2, 0x00210005, 0x0022eeee] =
      [[0x1234a003, 2, 0x00210005, 0x0022eeee]] := by decide +kernel
  obtain ⟨r, hr, hcontents⟩ := exists_report hfound
  exact ⟨r, hr, (parser_inside_iff zeroed _ _ r hr).mpr (by rw [hcontents]; decide)⟩

/-- A distance frame that announces 812 words. -/
theorem parser_outside :
    ¬ ∀ (nios : Nios) (words : List Word) (turns : List Turn),
      ∀ r ∈ ((Session.start nios words).run turns).reports, Inside r.before r.after := by
  intro h
  have hfound : foundContents [0x1234a003, 812, 0xeeee] = [[0x1234a003, 812, 0xeeee]] := by
    decide +kernel
  obtain ⟨r, hr, hcontents⟩ := exists_report hfound
  have hinside := (handed_of_mem hr).inside_iff.mp (h zeroed _ _ r hr)
  rw [hcontents] at hinside
  exact absurd hinside (by decide)

/-! ### Frames through the receive loop -/

/-- No payload word looks like the end of a frame. -/
def Frame.Clean (f : Frame) : Prop := ∀ w ∈ f.payload, w.low ≠ 0xeeee

theorem length_words (f : Frame) : f.words.length = f.kind.dataLen + 3 := by
  simp [Frame.words, Kind.header, f.complete]

theorem length_words_lt (f : Frame) : f.words.length < 2048 := by
  rw [length_words]
  cases f.kind <;> decide

theorem header_plain (kind : Kind) : ∀ w ∈ kind.header, w.low ≠ 0xeeee := by
  have hhead := header_low kind
  intro w hw
  rcases List.mem_pair.mp hw with rfl | rfl
  · rw [hhead]
    cases kind <;> decide
  · cases kind <;> decide

theorem closing_low (kind : Kind) (alarms : BitVec 3) : (kind.closing alarms).low = 0xeeee := by
  revert kind alarms
  rintro (_ | _) <;> decide

theorem body_plain {f : Frame} (hclean : f.Clean) :
    ∀ w ∈ f.kind.header ++ f.payload, w.low ≠ 0xeeee := by
  intro w hw
  rcases List.mem_append.mp hw with hheader | hpayload
  · exact header_plain f.kind w hheader
  · exact hclean w hpayload

section Frames

variable {s : Session} {f : Frame} {part more : List Word}

/-- A turn that reads the rest of a clean frame decodes it. -/
theorem turn_complete (h : s.Between) (hclean : f.Clean)
    (hbody : s.nios.laserDataQueue.contents ++ part = f.kind.header ++ f.payload)
    (hunread : s.unread = part ++ f.kind.closing f.alarms :: more) {turn : Turn}
    (hbudget : part.length < turn.budget) :
    (s.turn turn).Between ∧ (s.turn turn).nios.laserDataQueue.contents = [] ∧
      (s.turn turn).unread = more ∧
      ∃ r : Report, (s.turn turn).reports = s.reports ++ [r] ∧ Decodes f r.before r.after := by
  have hlength := length_words_lt f
  have hsum : s.nios.laserDataQueue.contents.length + part.length + 1 = f.words.length := by
    rw [Frame.words, ← hbody, List.length_append, List.length_append, List.length_singleton]
  have hdepth : s.nios.laserDataQueue.depth.toNat = 2048 := by rw [h.sound.depth]; rfl
  have hplain : ∀ w ∈ part, w.low ≠ 0xeeee := fun w hw =>
    body_plain hclean w (hbody ▸ List.mem_append_right _ hw)
  have htake : s.unread.take turn.budget = part ++ f.kind.closing f.alarms ::
      more.take (turn.budget - part.length - 1) := by
    obtain ⟨n, hn⟩ : ∃ n, turn.budget = part.length + (n + 1) :=
      ⟨turn.budget - part.length - 1, by omega⟩
    rw [hunread, hn, List.take_length_add_append, List.take_succ_cons]
    congr 3
    omega
  have hdrop : s.unread.drop turn.budget = more.drop (turn.budget - part.length - 1) := by
    obtain ⟨n, hn⟩ : ∃ n, turn.budget = part.length + (n + 1) :=
      ⟨turn.budget - part.length - 1, by omega⟩
    rw [hunread, hn, List.drop_length_add_append, List.drop_succ_cons]
    congr 1
    omega
  obtain ⟨queue, hloop, hvalid, hcontents, hdepth', -⟩ := recvLoop_append h.sound.valid hplain
    (by rw [hdepth]; omega) (f.kind.closing f.alarms :: more.take (turn.budget - part.length - 1))
  obtain ⟨queue', hloop', hvalid', hcontents', hdepth'', hflag⟩ :=
    recvLoop_last hvalid (closing_low f.kind f.alarms)
      (by rw [hcontents, hdepth', hdepth, List.length_append]; omega)
      (more.take (turn.budget - part.length - 1))
  obtain ⟨hreports, hleft, hqueue⟩ := turn_of_flag (by rw [htake, hloop, hloop']) hflag
  have hholds : Holds (s.handed queue') f.words [] := by
    refine ⟨hvalid', ?_, rfl⟩
    exact hcontents'.trans (by rw [hcontents, hbody, Frame.words])
  have hsound : Sound (s.handed queue') 2048 :=
    ⟨hvalid', (hdepth''.trans hdepth').trans h.sound.depth⟩
  refine ⟨between_of_sound hsound.fpga2niosParse hqueue, ?_, ?_, _, hreports, parse_frame hholds⟩
  · rw [hqueue]
    exact parse_frame_contents hholds
  · rw [hleft, hdrop, List.take_append_drop]

/-- A turn that stops inside a clean frame leaves its words in the queue. -/
theorem turn_partial (h : s.Between) (hclean : f.Clean)
    (hbody : s.nios.laserDataQueue.contents ++ part = f.kind.header ++ f.payload)
    (hunread : s.unread = part ++ f.kind.closing f.alarms :: more) {turn : Turn}
    (hbudget : turn.budget ≤ part.length) :
    (s.turn turn).Between ∧
      (s.turn turn).nios.laserDataQueue.contents =
        s.nios.laserDataQueue.contents ++ part.take turn.budget ∧
      (s.turn turn).unread = s.unread.drop turn.budget ∧ (s.turn turn).reports = s.reports := by
  have hlength := length_words_lt f
  have hsum : s.nios.laserDataQueue.contents.length + part.length + 1 = f.words.length := by
    rw [Frame.words, ← hbody, List.length_append, List.length_append, List.length_singleton]
  have hdepth : s.nios.laserDataQueue.depth.toNat = 2048 := by rw [h.sound.depth]; rfl
  have hplain : ∀ w ∈ part.take turn.budget, w.low ≠ 0xeeee := fun w hw =>
    body_plain hclean w (hbody ▸ List.mem_append_right _ (List.mem_of_mem_take hw))
  have htake : s.unread.take turn.budget = part.take turn.budget ++ [] := by
    rw [hunread, List.take_append_of_le_length hbudget, List.append_nil]
  obtain ⟨queue, hloop, hvalid, hcontents, hdepth', hflag⟩ :=
    recvLoop_append h.sound.valid hplain
      (by rw [hdepth, List.length_take]; omega) []
  rw [h.flag] at hflag
  obtain ⟨hreports, hleft, hqueue⟩ :=
    turn_of_no_flag (by rw [htake, hloop, recvLoop]) (by rw [hflag]; decide)
  refine ⟨⟨⟨?_, ?_⟩, ?_⟩, ?_, hleft, hreports⟩ <;> rw [hqueue]
  · exact hvalid
  · exact hdepth'.trans h.sound.depth
  · exact hflag
  · exact hcontents

end Frames

/-- The session after some turns, of which `k` completed a frame. -/
structure Progress (frames : List Frame) (k : ℕ) (s : Session) : Prop where
  between : s.Between
  decoded : List.Forall₂ (fun f r => Decodes f r.before r.after) (frames.take k) s.reports
  words : s.nios.laserDataQueue.contents ++ s.unread = (frames.drop k).flatMap Frame.words
  short : ∀ f rest, frames.drop k = f :: rest →
    s.nios.laserDataQueue.contents.length < f.words.length

/-- **The step lemma.** One turn over clean frames. -/
theorem progress_turn {frames : List Frame} (hclean : ∀ f ∈ frames, f.Clean) {k : ℕ} {s : Session}
    (h : Progress frames k s) (turn : Turn) : ∃ k', Progress frames k' (s.turn turn) := by
  obtain ⟨hbetween, hdecoded, hwords, hshort⟩ := h
  cases hdrop : frames.drop k with
  | nil =>
      -- everything has been decoded
      rw [hdrop, List.flatMap_nil, List.append_eq_nil_iff] at hwords
      obtain ⟨hcontents, hunread⟩ := hwords
      have hflag : s.nios.laserDataQueue.frameOverFlag ≠ 0x01 := by rw [hbetween.flag]; decide
      obtain ⟨hreports, hleft, hqueue⟩ := turn_of_no_flag
        (show recvLoop (s.unread.take turn.budget) s.nios.laserDataQueue =
            (s.nios.laserDataQueue, []) by rw [hunread, List.take_nil, recvLoop]) hflag
      refine ⟨k, ⟨⟨?_, ?_⟩, ?_⟩, by rw [hreports]; exact hdecoded, ?_, by simp [hdrop]⟩
      all_goals rw [hqueue]
      · exact hbetween.sound.valid
      · exact hbetween.sound.depth
      · exact hbetween.flag
      · simp [hcontents, hleft, hunread, hdrop]
  | cons f rest =>
      have hmem : f ∈ frames := List.mem_of_mem_drop (hdrop ▸ List.mem_cons_self)
      have hlt : k < frames.length := by
        by_contra hge
        rw [List.drop_eq_nil_of_le (by omega)] at hdrop
        exact absurd hdrop (by simp)
      rw [hdrop, List.flatMap_cons, Frame.words] at hwords
      -- what of the frame is still unread
      have hpart : s.nios.laserDataQueue.contents <+: f.kind.header ++ f.payload := by
        apply List.prefix_of_prefix_length_le (List.prefix_append _ s.unread)
        · rw [hwords, List.append_assoc]
          exact List.prefix_append _ _
        · have hlength := hshort f rest hdrop
          rw [Frame.words, List.length_append, List.length_singleton] at hlength
          omega
      obtain ⟨part, hbody⟩ := hpart
      have hunread : s.unread = part ++ f.kind.closing f.alarms :: rest.flatMap Frame.words := by
        rw [← hbody, List.append_assoc, List.append_assoc] at hwords
        exact List.append_cancel_left hwords
      by_cases hbudget : turn.budget ≤ part.length
      · obtain ⟨hbetween', hcontents, hunread', hreports⟩ :=
          turn_partial hbetween (hclean f hmem) hbody hunread hbudget
        refine ⟨k, hbetween', by rw [hreports]; exact hdecoded, ?_, ?_⟩
        · rw [hcontents, hunread', hunread, List.drop_append_of_le_length hbudget,
            List.append_assoc, ← List.append_assoc (part.take _), List.take_append_drop, hdrop,
            List.flatMap_cons, Frame.words, ← hbody]
          simp
        · intro f' rest' hdrop'
          rw [hdrop, List.cons.injEq] at hdrop'
          obtain ⟨rfl, rfl⟩ := hdrop'
          have hlength := congrArg List.length hbody
          rw [List.length_append] at hlength
          rw [hcontents, Frame.words, List.length_append, List.length_append, List.length_take,
            List.length_singleton]
          omega
      · obtain ⟨hbetween', hcontents, hunread', r, hreports, hr⟩ :=
          turn_complete hbetween (hclean f hmem) hbody hunread (Nat.lt_of_not_le hbudget)
        have hdrop' : frames.drop (k + 1) = rest := by
          rw [← List.tail_drop, hdrop, List.tail_cons]
        refine ⟨k + 1, hbetween', ?_, ?_, ?_⟩
        · have hget : frames[k] = f := by
            have := List.drop_eq_getElem_cons hlt
            rw [hdrop, List.cons.injEq] at this
            exact this.1.symm
          rw [hreports, List.take_succ_eq_append_getElem hlt, hget]
          exact List.rel_append hdecoded (.cons hr .nil)
        · rw [hcontents, hunread', hdrop', List.nil_append]
        · intro f' rest' _
          rw [hcontents, length_words]
          exact Nat.succ_pos _

/-- The calls of a session so far decoded the first frames, one call a frame and in order, what is left of
the stream is the rest of the frames, and when nothing is unread nothing is left to decode. -/
def Transparent (frames : List Frame) (s : Session) : Prop :=
  ∃ k, List.Forall₂ (fun f r => Decodes f r.before r.after) (frames.take k) s.reports ∧
    s.nios.laserDataQueue.contents ++ s.unread = (frames.drop k).flatMap Frame.words ∧
    (s.unread = [] → frames.length ≤ k)

theorem Progress.transparent {frames : List Frame} {k : ℕ} {s : Session} (h : Progress frames k s) :
    Transparent frames s := by
  refine ⟨k, h.decoded, h.words, fun hunread => ?_⟩
  by_contra hlt
  have hdrop := List.drop_eq_getElem_cons (show k < frames.length by omega)
  have hwords := congrArg List.length h.words
  have hshort := h.short _ _ hdrop
  rw [hunread, hdrop, List.append_nil, List.flatMap_cons, List.length_append] at hwords
  omega

theorem progress_run {frames : List Frame} (hclean : ∀ f ∈ frames, f.Clean) {k : ℕ} {s : Session}
    (h : Progress frames k s) (turns : List Turn) : ∃ k', Progress frames k' (s.run turns) := by
  induction turns generalizing s k with
  | nil => exact ⟨k, h⟩
  | cons turn turns ih =>
      obtain ⟨k', h'⟩ := progress_turn hclean h turn
      exact ih h'

theorem progress_start (nios : Nios) (frames : List Frame) :
    Progress frames 0 (Session.start nios (frames.flatMap Frame.words)) := by
  have hempty : (Session.start nios (frames.flatMap Frame.words)).nios.laserDataQueue.contents =
      [] := Queue.contents_init _ (by decide) (by decide)
  refine ⟨between_start nios _, .nil, by rw [hempty]; rfl, fun f rest _ => ?_⟩
  rw [hempty, length_words]
  exact Nat.succ_pos _

/-! ### A frame that is not clean -/

/-- The words of a frame up to the first one that looks like its end. -/
theorem exists_dirty {f : Frame} (h : ¬ f.Clean) :
    ∃ pre last post, f.payload = pre ++ last :: post ∧ (∀ w ∈ pre, w.low ≠ 0xeeee) ∧
      last.low = 0xeeee := by
  simp only [Frame.Clean, not_forall, not_not] at h
  obtain ⟨w, hw, hlow⟩ := h
  obtain ⟨last, hfind⟩ := Option.isSome_iff_exists.mp
    (List.find?_isSome (p := fun w : Word => w.low == 0xeeee) |>.mpr ⟨w, hw, by simpa using hlow⟩)
  obtain ⟨hlast, pre, post, hsplit, hpre⟩ := List.find?_eq_some_iff_append.mp hfind
  exact ⟨pre, last, post, hsplit, fun w' hw' => by simpa using hpre w' hw', by simpa using hlast⟩

/-- A turn that meets such a word calls the parser over a frame that is cut short. -/
theorem turn_dirty {s : Session} (h : s.Between) {f : Frame} (hdirty : ¬ f.Clean)
    (hcontents : s.nios.laserDataQueue.contents = []) {more : List Word}
    (hunread : s.unread = f.words ++ more) :
    ∃ r ∈ (s.turn (receiving f.words.length)).reports, Dry r.after := by
  obtain ⟨pre, last, post, hpayload, hpre, hlast⟩ := exists_dirty hdirty
  have hlength := length_words_lt f
  have hwords : f.words = (f.kind.header ++ pre) ++ last :: (post ++ [f.kind.closing f.alarms]) := by
    simp [Frame.words, hpayload]
  have hplain : ∀ w ∈ f.kind.header ++ pre, w.low ≠ 0xeeee := by
    intro w hw
    rcases List.mem_append.mp hw with hheader | hpre'
    · exact header_plain f.kind w hheader
    · exact hpre w hpre'
  have hdepth : s.nios.laserDataQueue.depth.toNat = 2048 := by rw [h.sound.depth]; rfl
  have hroom : (f.kind.header ++ pre).length + 1 < 2048 := by
    have hsum := congrArg List.length hwords
    rw [List.length_append, List.length_cons] at hsum
    omega
  have htake : s.unread.take (receiving f.words.length).budget =
      (f.kind.header ++ pre) ++ last :: (post ++ [f.kind.closing f.alarms]) := by
    rw [hunread, ← hwords]
    exact List.take_left' rfl
  obtain ⟨queue, hloop, hvalid, hcontents', hdepth', -⟩ :=
    recvLoop_append h.sound.valid hplain (by rw [hcontents, hdepth, List.length_nil]; omega)
      (last :: (post ++ [f.kind.closing f.alarms]))
  obtain ⟨queue', hloop', hvalid', hcontents'', -, hflag⟩ := recvLoop_last hvalid hlast
    (by rw [hcontents', hcontents, List.nil_append, hdepth', hdepth]; exact hroom)
    (post ++ [f.kind.closing f.alarms])
  obtain ⟨hreports, -, -⟩ := turn_of_flag (by rw [htake, hloop, hloop']) hflag
  refine ⟨_, by rw [hreports]; exact List.mem_append_right _ (List.mem_singleton.mpr rfl), ?_⟩
  have hholds : Holds (s.handed queue') (f.kind.header ++ (pre ++ [last])) [] := by
    refine ⟨hvalid', ?_, rfl⟩
    exact hcontents''.trans (by rw [hcontents', hcontents]; simp)
  apply parse_dry hholds
  rw [← f.complete, hpayload]
  simp

/-- Some turns bring a session to the first frame that is not clean, and the parser runs dry. -/
theorem exists_dry {frames : List Frame} (hdirty : ¬ ∀ f ∈ frames, f.Clean) {s : Session}
    (h : s.Between) (hcontents : s.nios.laserDataQueue.contents = [])
    (hunread : s.unread = frames.flatMap Frame.words) :
    ∃ turns, ∃ r ∈ (s.run turns).reports, Dry r.after := by
  induction frames generalizing s with
  | nil => simp at hdirty
  | cons f frames ih =>
      rw [List.flatMap_cons] at hunread
      by_cases hclean : f.Clean
      · have hunread' : s.unread = (f.kind.header ++ f.payload) ++ f.kind.closing f.alarms ::
            frames.flatMap Frame.words := by
          simp [hunread, Frame.words]
        have hbudget : (f.kind.header ++ f.payload).length < (receiving f.words.length).budget := by
          simp [receiving, Frame.words]
        obtain ⟨hbetween, hempty, hrest, -⟩ := turn_complete h hclean
          (by rw [hcontents, List.nil_append]) hunread' hbudget
        have hdirty' : ¬ ∀ f ∈ frames, f.Clean := fun hall => hdirty (by simpa [hclean] using hall)
        obtain ⟨turns, hdry⟩ := ih hdirty' hbetween hempty hrest
        exact ⟨receiving f.words.length :: turns, hdry⟩
      · exact ⟨[receiving f.words.length], turn_dirty h hclean hcontents hunread⟩

theorem Nios.Decodes.not_dry {f : Frame} {s s' : Nios} (h : Decodes f s s') : ¬ Dry s' := by
  rintro ⟨x, hx, hdry⟩
  rw [h.pops, List.mem_map] at hx
  obtain ⟨w, -, rfl⟩ := hx
  exact Bool.noConfusion hdry

theorem Transparent.not_dry {frames : List Frame} {s : Session} (h : Transparent frames s) :
    ∀ r ∈ s.reports, ¬ Dry r.after := by
  obtain ⟨k, hdecoded, -, -⟩ := h
  intro r hr
  obtain ⟨i, hi, rfl⟩ := List.getElem_of_mem hr
  exact (hdecoded.get (by rw [hdecoded.length_eq]; exact hi) hi).not_dry

/-- **Frames through the receive loop.** The loop is transparent for a sequence of frames, however
its turns cut the stream, exactly when no payload word looks like the end of a frame. -/
theorem transparent_iff (nios : Nios) (frames : List Frame) :
    (∀ turns, Transparent frames ((Session.start nios (frames.flatMap Frame.words)).run turns)) ↔
      ∀ f ∈ frames, f.Clean := by
  constructor
  · intro htransparent
    by_contra hdirty
    obtain ⟨turns, r, hr, hdry⟩ := exists_dry hdirty
      (between_start nios (frames.flatMap Frame.words))
      (Queue.contents_init _ (by decide) (by decide)) rfl
    exact (htransparent turns).not_dry r hr hdry
  · intro hclean turns
    obtain ⟨k, h⟩ := progress_run hclean (progress_start nios frames) turns
    exact h.transparent

/-- A status frame whose motor counter reads 61166. -/
def tornStatus : Frame where
  kind := .status
  payload := [0x0000eeee, 0, 0, 0, 0]
  alarms := 0
  complete := rfl

theorem not_transparent :
    ¬ ∀ (nios : Nios) (frames : List Frame) (turns : List Turn),
      Transparent frames ((Session.start nios (frames.flatMap Frame.words)).run turns) := by
  intro h
  have hdirty : ¬ ∀ f ∈ [tornStatus], f.Clean := by
    intro hclean
    exact hclean tornStatus (List.mem_singleton_self _) 0x0000eeee List.mem_cons_self (by decide)
  obtain ⟨turns, r, hr, hdry⟩ := exists_dry hdirty
    (between_start zeroed ([tornStatus].flatMap Frame.words))
    (Queue.contents_init _ (by decide) (by decide)) rfl
  exact (h zeroed [tornStatus] turns).not_dry r hr hdry

end SingleScan
