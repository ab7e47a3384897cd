import SingleScan.CommandModule

/-!
# The packets the Nios core sends

`nios2fpga_protocol.c` and `region_save2fpga` of `region.c`: the words that each call leaves at the
FPGA side of the protocol FIFO, in order. Memory that a function reads through a pointer is a
function of the index.
-/

namespace SingleScan

/-- `altera_avalon_fifo_write_fifo` with the halves swapped by the caller, as the FPGA reads it. -/
def writeFifo (data : Word) : Word := mapAvalonmmToAvalonst (swapHalves data)

@[simp]
theorem writeFifo_eq (data : Word) : writeFifo data = data :=
  mapAvalonmmToAvalonst_swapHalves data

theorem map_writeFifo (words : List Word) : words.map writeFifo = words := by
  simp [funext writeFifo_eq]

/-- `check_sum`: the XOR of the words. -/
def checkSum (data : List Word) : Word := data.foldl (· ^^^ ·) 0

/-- `nios2fpga_data_write`. -/
def nios2fpgaDataWrite (data : List Word) : List Word := data.map writeFifo

/-- `nios2fpga_data_packet`, for the `len` words of `src`. -/
def nios2fpgaDataPacket (command : BitVec 16) (src : List Word) : List Word :=
  let buf := (((0x1234 : Word) <<< 16) + command.setWidth 32) :: BitVec.ofNat 32 src.length :: src
  nios2fpgaDataWrite (buf ++ [checkSum buf])

/-- `set_laser_paramter`. -/
def setLaserParamter (command : BitVec 16) (data : Word) : List Word :=
  nios2fpgaDataPacket command [data]

/-- `region_save2fpga`, for the layer `num` and the boundaries in `region->buffer`. -/
def regionSave2fpga (buffer : BoundaryTable) (num : Layer) : List Word :=
  let command : Word := match num with
    | 0 => 0x12340000 + 0xb100
    | 1 => 0x12340000 + 0xb101
    | 2 => 0x12340000 + 0xb102
  (command :: 811 :: (List.ofFn (fun i => (buffer i).setWidth 32) ++ [0xccccdddd])).map writeFifo

/-- The indices `for(i = 0; i < limit; i = i + stride)` runs through. -/
def strideIndices (limit stride : Nat) : List Nat :=
  List.range' 0 ((limit + stride - 1) / stride) stride

/-- `sizeof(SysPara.laser_presdo)`. -/
def laserPresdoSize : Nat := 30

/-- `write_laser_presdo`. The last turn of its loop reads `arr[30]` and `arr[31]`, the two bytes that
follow the pattern in memory. -/
def writeLaserPresdo (arr : Nat → BitVec 8) : List Word :=
  ((0x1234a104 : Word) :: 30 ::
    ((strideIndices laserPresdoSize 4).map (fun i =>
      ((arr i).setWidth 32 <<< 24) + ((arr (i + 1)).setWidth 32 <<< 16)
        + ((arr (i + 2)).setWidth 32 <<< 8) + ((arr (i + 3)).setWidth 32 <<< 0))
      ++ [0xccccdddd])).map writeFifo

end SingleScan
