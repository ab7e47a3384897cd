import SingleScan.CalcDistance

/-!
# The reader of the histogram

The half of `calc_distance_top.v` that reads: `grid_statistical` with port `b` of the two banks. What
comes in at port `a`, and when `tannis_change` is toggled, is up to the writer.
-/

namespace SingleScan.Readout

/-- `left bank` is port `a` of a bank. -/
structure Input extends GridStatistical.Input where
  left : Bool → RamPort

structure State where
  statistical : GridStatistical.State
  gridRam : Bool → GridRam.State

def State.powerUp : State where
  statistical := GridStatistical.State.powerUp
  gridRam _ := GridRam.State.powerUp

/-- Port `b` of a bank. -/
def State.rightPort (s : State) (bank : Bool) : RamPort where
  rden := s.statistical.rightRden bank
  wren := s.statistical.rightWren bank
  addr := s.statistical.rightAddr bank
  data := 0

def step (divide : BitVec 24 → BitVec 9 → BitVec 24) (s : State) (i : Input) : State where
  statistical :=
    GridStatistical.step divide s.statistical i.toInput fun bank => (s.gridRam bank).qB
  gridRam bank := GridRam.step (s.gridRam bank) (i.left bank) (s.rightPort bank)

end SingleScan.Readout
