import Aeterna.Sched.Selection
import Aeterna.Sched.Death
import Aeterna.Sched.Context
import Aeterna.Sched.Confinement
import Aeterna.Mm.Ranges
import Aeterna.Mm.Refinement
import Aeterna.Mm.KernelHalf
import Aeterna.Sched.MemoryCalls
import Aeterna.Ipc.Channels
import Aeterna.Net.SendSequence
import Aeterna.Net.EndOfStream
import Aeterna.Net.Conversation
import Aeterna.Net.Ipv4
import Aeterna.Net.DnsResponse
import Aeterna.Net.Arp
import Aeterna.Net.Resolver
import Aeterna.Net.Sntp
import Aeterna.Net.Dhcp
import Aeterna.Net.Tls.Ghash
import Aeterna.Net.Tls.Prf
import Aeterna.Net.Tls.Send
import Aeterna.Net.Tls.Fragmentation
import Aeterna.Net.Tls.Certificates
import Aeterna.Drivers.Block
import Aeterna.Drivers.Xhci
import Aeterna.Drivers.Nvme
import Aeterna.Drivers.Acpi
import Aeterna.Vfs.Readdir
import Aeterna.Vfs.SyncSteps
import Aeterna.Vfs.Mounts
import Aeterna.Vfs.AeternaFs.Answers
import Aeterna.Vfs.AeternaFs.Remount
import Aeterna.Term.ReadLine
import Aeterna.Term.Scancodes
import Aeterna.Term.Isqrt
import Aeterna.Installer.Layout
import Aeterna.Tomato.RoundTrip
import Aeterna.Tomato.Resolve
import Aeterna.Tomato.Contents
import Aeterna.Plum.Halting
import Aeterna.Plum.Runs
import Aeterna.Ane.Gradients
import Aeterna.Ane.Compiler
import Aeterna.Grape.Text
import Aeterna.Grape.Search
import Aeterna.Axon.Move
