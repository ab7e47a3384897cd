import SingleScan.CommandLink

/-!
# The packets in the words for the FPGA

The words that the Nios core has sent are a sequence of packets. The length word counts the data words,
except in the packet of `write_laser_presdo`, where it counts bytes.
-/

namespace SingleScan

open CommandModule

namespace Stream

/-- How many data words stand behind a length word. -/
def dataWords (command : BitVec 16) (len : Word) : ℕ :=
  if command = laserPseudo then (len.toNat + 3) / 4 else len.toNat

/-- The commands and the data in the words, with some packets to go. -/
def packets : ℕ → List Word → List (BitVec 16 × List Word)
  | packet + 1, head :: len :: rest =>
    let n := dataWords head.low len
    (head.low, rest.take n) :: packets packet (rest.drop (n + 1))
  | _, _ => []

/-- The data of the last packet with a command. -/
def lastData (command : BitVec 16) (words : List Word) : Option (List Word) :=
  (((packets words.length words).filter fun p => p.1 = command).getLast?).map Prod.snd

end Stream

end SingleScan
