import Oinzen.Interference.Program
import Oinzen.Interference.Abstraction
import Oinzen.Interference.System
import Oinzen.Interference.Rely
import Oinzen.Interference.Machine
import Oinzen.Interference.Threads
import Oinzen.Interference.Frame
import Oinzen.Interference.Twin
import Oinzen.Interference.Watch
import Oinzen.Ring.Window
import Oinzen.Sharing.Links
import Oinzen.Sharing.Moves
import Oinzen.Tiling.Blocks
import Oinzen.Tiling.Objects
import Oinzen.External
import Oinzen.Hal.Eth
import Oinzen.Hal.Dma
import Oinzen.Hal.Interrupt
import Oinzen.Driver.Ethernetif
import Oinzen.Driver.Start
import Oinzen.Driver.Config
import Oinzen.Receive.Ring
import Oinzen.Receive.Others
import Oinzen.Receive.Input
import Oinzen.Receive.Thread
import Oinzen.Receive.Blocked
import Oinzen.Receive.Scatter
import Oinzen.Transmit.Ring
import Oinzen.Transmit.Gather
import Oinzen.Transmit.Handover
import Oinzen.Transmit.Copy
import Oinzen.Transmit.Output
import Oinzen.Transmit.Calls
import Oinzen.Transmit.Queue
import Oinzen.Transmit.Twin
import Oinzen.Transmit.Refused
import Oinzen.Lwip.State
import Oinzen.Lwip.Netif
import Oinzen.Lwip.Dhcp
import Oinzen.Lwip.Frame
import Oinzen.App.Lwip
import Oinzen.App.Monitor
import Oinzen.App.View
import Oinzen.App.Events
import Oinzen.App.Passes
import Oinzen.App.Coherence
import Oinzen.App.Client
import Oinzen.App.LinkLoss
import Oinzen.App.Lease
import Oinzen.App.Tries
import Oinzen.Lwip.Idle
import Oinzen.App.Stages
import Oinzen.App.Serial
import Oinzen.Heap.Mem
import Oinzen.Heap.Linked
import Oinzen.Heap.Malloc
import Oinzen.Heap.Free
import Oinzen.Heap.Trim
import Oinzen.Heap.Runs
import Oinzen.Heap.Sanity
import Oinzen.Pbuf.Chain
import Oinzen.Pbuf.Node
import Oinzen.Pbuf.Loops
import Oinzen.Pbuf.Use
import Oinzen.Pbuf.Calls
import Oinzen.Pbuf.Kept
import Oinzen.Pbuf.Whole
import Oinzen.Pbuf.Bounds
import Oinzen.Wire.Items
import Oinzen.Agenda.Plan
import Oinzen.Message.Parse
import Oinzen.Message.Meaning
import Oinzen.Message.WellFormed
import Oinzen.Message.Create
import Oinzen.Message.Sent
import Oinzen.Timers.Timeouts
import Oinzen.Timers.Runs
import Oinzen.Timers.Kept
