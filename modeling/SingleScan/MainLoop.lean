import SingleScan.Fpga2NiosProtocol

/-!
# The receive loop

The part of `main` that empties the laser FIFO into `LaserDataQueue` and calls the parser. One turn
of `while(1)` is a `Turn`: how many words the inner loop finds before the FIFO runs dry, and what the
rest of the turn does to the memory, which nowhere touches the queue.
-/

namespace SingleScan

/-- `read_fpga_data`, for a word that `update2nios` put on the bus of the laser FIFO. -/
def readFpgaData (data : Word) : Word := swapHalves (mapAvalonmmToAvalonst data)

/-- `while(fpga_is_has_data())`, with the words that the FIFO delivers meanwhile; it returns those it
did not read. -/
def recvLoop : List Word → Queue → Queue × List Word
  | [], queue => (queue, [])
  | data :: fifo, queue =>
      let queue := if queueIsFull queue then queueClear queue else queue
      let recvData := readFpgaData data
      let queue := queuePush queue recvData
      if recvData.low = 0xeeee then ({ queue with frameOverFlag := 0x01 }, fifo)
      else recvLoop fifo queue

/-- One turn of `while(1)`. -/
structure Turn where
  budget : ℕ
  rest : Nios → Nios
  keeps : ∀ s, (rest s).laserDataQueue = s.laserDataQueue

/-- A call of `fpga2nios_parse`: the memory before it and after it. Both records start anew. -/
structure Report where
  before : Nios
  after : Nios

/-- The Nios core, the words of the FPGA that are still in the laser FIFO or to come, and the calls of
the parser so far. -/
structure Session where
  nios : Nios
  unread : List Word
  reports : List Report

/-- The memory when `main` enters its loop. -/
def Session.start (nios : Nios) (words : List Word) : Session where
  nios := { nios with laserDataQueue := queueInit nios.laserDataQueue.data 2048 }
  unread := words
  reports := []

def Session.turn (s : Session) (turn : Turn) : Session :=
  let (queue, left) := recvLoop (s.unread.take turn.budget) s.nios.laserDataQueue
  let nios := { s.nios with laserDataQueue := queue, pops := [], overrun := false }
  let unread := left ++ s.unread.drop turn.budget
  if queue.frameOverFlag = 0x01 then
    let after := nios.fpga2niosParse
    { nios := turn.rest
        { after with laserDataQueue := { after.laserDataQueue with frameOverFlag := 0x00 } }
      unread := unread
      reports := s.reports ++ [⟨nios, after⟩] }
  else { nios := turn.rest nios, unread := unread, reports := s.reports }

/-- The session after some turns. -/
def Session.run (s : Session) (turns : List Turn) : Session := turns.foldl Session.turn s

end SingleScan
