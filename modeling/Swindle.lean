import Swindle.MachineRuns
import Swindle.FlashOperations
import Swindle.UsbHost
import Swindle.TransferRecovery
import Swindle.ConsecutiveBlocks
import Swindle.ErasedSectors
import Swindle.BootRegion
import Swindle.StatusAgreement
import Swindle.AddressRange
import Swindle.BlockFrame
import Swindle.BufferTails
import Swindle.DataStageLength
import Swindle.InDataStage
import Swindle.BootCheck
import Swindle.BootHandover
import Swindle.Acknowledge
import Swindle.ResetTiming
import Swindle.DownloadGate
import Swindle.DeviceAddress
import Swindle.FlashProgress
import Swindle.ImageChecksum
import Swindle.ManifestStates
import Swindle.SystemTimer
import Swindle.SamplePace
import Swindle.ControllerHygiene
import Swindle.ByteWrite
import Swindle.BootCycles
import Swindle.StartUp
import Swindle.ClockSetUp
import Swindle.Pins
import Swindle.Interrupts
import Swindle.TickInterrupt
import Swindle.PayloadHeader
import Swindle.DataToggle
