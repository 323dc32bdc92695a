import AkidaEdma.Library.Transition
import AkidaEdma.Library.Trace
import AkidaEdma.Library.ReadModifyWrite
import AkidaEdma.Library.Footprint
import AkidaEdma.Library.Packing
import AkidaEdma.Library.LittleEndian
import AkidaEdma.Library.Latch
import AkidaEdma.Engine.Run
import AkidaEdma.Engine.Queue
import AkidaEdma.Engine.Build
import AkidaEdma.Engine.ScatterGather
import AkidaEdma.Engine.LinkedList
import AkidaEdma.Engine.Stall
import AkidaEdma.Engine.Terminate
import AkidaEdma.Engine.InOrder
import AkidaEdma.Engine.V0Core
import AkidaEdma.Engine.Registers
import AkidaEdma.Engine.Isolation
import AkidaEdma.Engine.InterruptMask
import AkidaEdma.Engine.HandleInt
import AkidaEdma.Engine.Interrupts
import AkidaEdma.Engine.Accounting
import AkidaEdma.Engine.CycleState
import AkidaEdma.Driver.ReadWrite
import AkidaEdma.Driver.DeviceMemory
import AkidaEdma.Driver.Iatu
import AkidaEdma.Driver.Layout
import AkidaEdma.Driver.Mmap
import AkidaEdma.Engine.Solo
import AkidaEdma.Driver.DmaTransfer
import AkidaEdma.Driver.System
import AkidaEdma.Driver.Ownership
import AkidaEdma.Driver.Session
import AkidaEdma.Driver.Outstanding
import AkidaEdma.Driver.Completion
import AkidaEdma.Driver.Mapping
import AkidaEdma.Driver.Remove
import AkidaEdma.Engine.FreeChan
import AkidaEdma.Probe.EngineProbe
import AkidaEdma.Engine.DescBalance
import AkidaEdma.Library.ListHead
import AkidaEdma.Library.Ledger
import AkidaEdma.Library.While
import AkidaEdma.Engine.MsiConfig
import AkidaEdma.Driver.Refusal
import AkidaEdma.Driver.Bar0
import AkidaEdma.Driver.HostDdr
import AkidaEdma.Engine.InterleavedDma
import AkidaEdma.Library.BlockCopy
import AkidaEdma.Engine.Pointer
import AkidaEdma.Engine.Succession
import AkidaEdma.Engine.Bus
import AkidaEdma.Engine.Machine
import AkidaEdma.Engine.Execution
import AkidaEdma.Engine.Gather
import AkidaEdma.Engine.Arrival
import AkidaEdma.Library.CyclicCounter
import AkidaEdma.Engine.Cookie
import AkidaEdma.Library.LedgerFrame
import AkidaEdma.Probe.DeviceProbe
import AkidaEdma.Probe.Devices
import AkidaEdma.Engine.Drain
import AkidaEdma.Engine.Delivery
import AkidaEdma.Engine.Service
import AkidaEdma.Driver.Calm
import AkidaEdma.System.DataPath
import AkidaEdma.System.InFlight
import AkidaEdma.System.Memory
import AkidaEdma.System.Calls
