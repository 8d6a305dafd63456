import UsbArmory.Usb.Effects
import UsbArmory.Rtic.Exclusion
import UsbArmory.Memlog.Fifo
import UsbArmory.Storage.MbrDisk
import UsbArmory.Rtic.MessageWakeup
import UsbArmory.Usb.Descriptors
import UsbArmory.Usb.EndWrite
import UsbArmory.Usb.Poll
import UsbArmory.Usb.Write
import UsbArmory.Usb.Read
import UsbArmory.Usb.Configure
import UsbArmory.Usb.Runs
import UsbArmory.Usb.Invariant
import UsbArmory.Usb.Events
import UsbArmory.Usb.Reports
import UsbArmory.Usb.Memory
import UsbArmory.Usb.Transfer
import UsbArmory.Usb.Delivery
import UsbArmory.Usb.Accepted
import UsbArmory.Usb.InFlight
import UsbArmory.Usb.Undisturbed
import UsbArmory.Storage.Accesses
import UsbArmory.Storage.MbrPartition
import UsbArmory.Storage.MbrIsolation
import UsbArmory.Library.Chunks
import UsbArmory.Storage.LfsCalls
import UsbArmory.Storage.LfsRefinement
import UsbArmory.Dcp.Command
import UsbArmory.Dcp.Chunking
import UsbArmory.Dcp.Digest
import UsbArmory.Dcp.Reset
import UsbArmory.Dcp.Aes
import UsbArmory.Dcp.AesIsolation
import UsbArmory.Dcp.Handles
import UsbArmory.Dcp.ChannelFlags
import UsbArmory.Dcp.Initialization
import UsbArmory.Library.Binary
import UsbArmory.Boot.Commands
import UsbArmory.Boot.Reader
import UsbArmory.Boot.Writer
import UsbArmory.Boot.Encoding
import UsbArmory.Boot.Written
import UsbArmory.Boot.RoundTrip
import UsbArmory.Boot.Ddr
import UsbArmory.Boot.FromElf
import UsbArmory.Library.Overlay
import UsbArmory.Boot.Pieces
import UsbArmory.Boot.Loading
import UsbArmory.Library.Latch
import UsbArmory.Storage.EmmcCommand
import UsbArmory.Storage.EmmcDriver
import UsbArmory.Storage.EmmcInvariant
import UsbArmory.Storage.EmmcAttribution
import UsbArmory.Usb.ResetSteps
import UsbArmory.Usb.BusReset
import UsbArmory.Usb.Rest
import UsbArmory.Usb.RestCalls
import UsbArmory.Usb.StatusOut
import UsbArmory.Usb.StatusPoll
import UsbArmory.Usb.StatusCalls
import UsbArmory.Usb.StatusRun
import UsbArmory.Boot.Serialized
import UsbArmory.Boot.CommandFlags
import UsbArmory.Library.Consume
import UsbArmory.Boot.Walk
import UsbArmory.Boot.Consumption
import UsbArmory.Boot.DeclaredBytes
import UsbArmory.Library.Settle
import UsbArmory.Boot.DcdPanics
import UsbArmory.Boot.ImagePanics
import UsbArmory.Library.Numerals
import UsbArmory.Library.Grouping
import UsbArmory.Library.SortedMap
import UsbArmory.Txt2rust.Parse
import UsbArmory.Txt2rust.Compress
import UsbArmory.Txt2rust.InstanceRuns
import UsbArmory.Library.Keyed
import UsbArmory.Txt2rust.Expansion
import UsbArmory.Txt2rust.Compression
import UsbArmory.Txt2rust.Distinctness
import UsbArmory.Library.Whitespace
import UsbArmory.Txt2rust.Rows
import UsbArmory.Txt2rust.RowReading
import UsbArmory.Txt2rust.TableLines
import UsbArmory.Txt2rust.Tables
import UsbArmory.Txt2rust.TableText
import UsbArmory.Library.Sampling
import UsbArmory.Time.Clock
import UsbArmory.Time.Linearizable
import UsbArmory.Time.Waiting
import UsbArmory.Library.Trace
import UsbArmory.Downloader.Sdp
import UsbArmory.Downloader.Delivery
import UsbArmory.Downloader.Replies
import UsbArmory.Downloader.Crashes
import UsbArmory.Usb.Pages
import UsbArmory.Usb.Books
import UsbArmory.Usb.Bookkeeping
import UsbArmory.Usb.Ownership
import UsbArmory.Usb.Allocation
import UsbArmory.Usb.Usable
import UsbArmory.Usb.Exhaustion
import UsbArmory.Usb.AllocationOrder
import UsbArmory.Usb.EndpointTypes
import UsbArmory.Usb.SetupPackets
import UsbArmory.Usb.Enumeration
import UsbArmory.Storage.Files
import UsbArmory.Storage.FileClosing
import UsbArmory.Storage.EmmcBlocks
import UsbArmory.Storage.EmmcCalls
import UsbArmory.Storage.EmmcRange
import UsbArmory.Usb.Arrivals
import UsbArmory.Usb.OutBuffers
import UsbArmory.Usb.OutCalls
import UsbArmory.Usb.OutReads
import UsbArmory.Usb.ControlData
import UsbArmory.Usb.Tolerance
import UsbArmory.Memlog.CursorRuns
import UsbArmory.Storage.Card
import UsbArmory.Storage.Formatting
import UsbArmory.Time.Conversion
import UsbArmory.Time.Timeout
import UsbArmory.Memlog.Flushing
import UsbArmory.Runtime.Deadlines
import UsbArmory.Runtime.Interrupts
import UsbArmory.Runtime.Dispatch
import UsbArmory.Boot.Copied
import UsbArmory.Txt2rust.Totality
import UsbArmory.Library.Traversal
import UsbArmory.Txt2rust.RowShapes
import UsbArmory.Txt2rust.TablePanics
import UsbArmory.Library.Registers
import UsbArmory.Serial.Uart
import UsbArmory.Serial.Listening
import UsbArmory.CStubs.Strcpy
import UsbArmory.Library.CStrings
import UsbArmory.Library.Confinement
import UsbArmory.Txt2rust.Codegen
import UsbArmory.Txt2rust.Calls
import UsbArmory.Txt2rust.Crate
import UsbArmory.Txt2rust.Program
import UsbArmory.Library.Patches
import UsbArmory.Downloader.Device
import UsbArmory.Downloader.Programs
import UsbArmory.Downloader.Transfers
import UsbArmory.Downloader.Booting
import UsbArmory.Downloader.Running
import UsbArmory.Library.Handout
import UsbArmory.Serial.Printing
import UsbArmory.Runtime.Leds
import UsbArmory.Rtic.Resources
import UsbArmory.Rtic.Sharing
import UsbArmory.Rtic.Startup
import UsbArmory.Runtime.Sections
import UsbArmory.Runtime.SectionInvariant
import UsbArmory.Library.Monitor
import UsbArmory.Storage.EmmcTake
import UsbArmory.Storage.Bringup
import UsbArmory.Library.Arm
import UsbArmory.Runtime.Exceptions
import UsbArmory.Runtime.Preempted
import UsbArmory.Runtime.Transparency
import UsbArmory.Runtime.Entry
import UsbArmory.Runtime.DataAbort
