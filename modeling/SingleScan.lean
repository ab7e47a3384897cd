import SingleScan.Proof.Batching
import SingleScan.Proof.Download
import SingleScan.Proof.Rotation
import SingleScan.Proof.Commands
import SingleScan.Proof.Update2Nios
import SingleScan.Proof.MainLoop
import SingleScan.Proof.Fault
import SingleScan.Proof.ActiveRegion
import SingleScan.Proof.FinalDistance
import SingleScan.Proof.Histogram
import SingleScan.Proof.FilterSignal
import SingleScan.Proof.Duty
import SingleScan.Proof.VirtualZero
import SingleScan.Proof.PosBuffer
import SingleScan.Proof.Fifo2spiBridge
import SingleScan.Proof.Status
import SingleScan.Proof.PeakDiv
import SingleScan.Proof.AdjustDistance
import SingleScan.Proof.EchoPath
import SingleScan.Proof.MergedMean
import SingleScan.Proof.CycleCtrl
import SingleScan.Proof.DustAlarm
import SingleScan.Proof.ZeroDistance
import SingleScan.Proof.HighV
import SingleScan.Proof.Modulation
import SingleScan.Proof.Debounce
import SingleScan.Proof.TargetSize
import SingleScan.Proof.MultDiv
import SingleScan.Proof.RecvModule
import SingleScan.Ad5328
import SingleScan.Proof.Ad5328
import SingleScan.Proof.RegionLoad
import SingleScan.Proof.Replies
import SingleScan.Proof.Warnings
import SingleScan.Proof.Telegram
import SingleScan.Proof.String2Hex
import SingleScan.Lib.Fifo
import SingleScan.Proof.Fifo
import SingleScan.Proof.Iic
import SingleScan.Proof.Connection
import SingleScan.Adt7301
import SingleScan.Proof.Adt7301
import SingleScan.Proof.ApdVoltage
