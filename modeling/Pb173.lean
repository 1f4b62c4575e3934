import Pb173.Machine
import Pb173.Buffer
import Pb173.Lock
import Pb173.Chunks
import Pb173.Opens
import Pb173.Pages
import Pb173.Protect
import Pb173.Cursor
import Pb173.Devices
import Pb173.Dma
import Pb173.Completion
import Pb173.Calls
import Pb173.Cards
import Pb173.Mapping
import Pb173.Teardown
import Pb173.References
import Pb173.Rearm
import Pb173.SkBuff
import Pb173.Packets
import Pb173.Capture
import Pb173.Life
import Pb173.Registration
import Pb173.NetLoad
import Pb173.PageLoad
import Pb173.Ladder
import Pb173.Phantom
import Pb173.Lifecycle
import Pb173.Files
import Pb173.Unplug
import Pb173.Window
import Pb173.Exclusive
import Pb173.Stream
import Pb173.Failure
import Pb173.Handed
import Pb173.MyDevice
import Pb173.Locked
import Pb173.Allocation
import Pb173.ReadLoop
import Pb173.Events
import Pb173.Hex
import Pb173.Stamp
import Pb173.Hack
import Pb173.Sessions
import Pb173.Outline
import Pb173.Transfer
import Pb173.FreedPage
import Pb173.Interface
import Pb173.Checksum
import Pb173.Header
import Pb173.Racing
import Pb173.Leaks
import Pb173.Retained
import Pb173.SharedPages
import Pb173.Linear
import Pb173.Torn
import Pb173.Isr
import Pb173.Minors
