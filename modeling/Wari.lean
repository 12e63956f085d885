import Wari.Lib.Machine
import Wari.Lib.Scan
import Wari.Lib.Tally
import Wari.Lib.Bitmap
import Wari.Lib.Bytes
import Wari.Lib.Rendezvous
import Wari.Lib.Exchange
import Wari.Types
import Wari.Pool
import Wari.Objects
import Wari.CSpace
import Wari.Revoke
import Wari.Syscall
import Wari.Boot
import Wari.Refcount
import Wari.History
import Wari.Derivation
import Wari.Freshness
import Wari.Attenuation
import Wari.Process
import Wari.Kernel
import Wari.Modreg
import Wari.Sched
import Wari.Tenants
import Wari.Cascade
import Wari.Confinement
import Wari.Ipc
import Wari.Endpoints
import Wari.Turns
import Wari.Meeting
import Wari.StartSection
import Wari.Coherence
import Wari.Delivery
import Wari.Messages
import Wari.Traffic
import Wari.Replies
import Wari.Lib.Window
import Wari.Loop
import Wari.Served
import Wari.Stream
import Wari.Lib.Batch
import Wari.Fastpath
import Wari.Submission
import Wari.Handles
import Wari.System
import Wari.Release
import Wari.Pairing
import Wari.Badges
import Wari.Parentage
import Wari.Lib.Pairing
import Wari.Sockets
import Wari.Connections
import Wari.Lib.Ram
import Wari.Dma
import Wari.Containment
import Wari.Lib.Ring
import Wari.Gmac
import Wari.Reception
import Wari.Guards
import Wari.Lib.Server
import Wari.PageAlloc
import Wari.Lib.Trie
import Wari.PageTable
import Wari.PageMap
import Wari.Lib.Slice
import Wari.Mcp
import Wari.Skipper
import Wari.Lookup
import Wari.Json
import Wari.Requests
import Wari.Http
import Wari.HttpLines
import Wari.HttpGrammar
import Wari.HttpStream
import Wari.Registry
import Wari.Registrar
import Wari.Daemons
import Wari.Lib.Stepper
import Wari.Wasm
import Wari.Clif
import Wari.Translate
import Wari.Layout
import Wari.Lowering
import Wari.Simulation
import Wari.Preservation
import Wari.Descriptors
import Wari.Wnm
import Wari.Container
import Wari.Checks
import Wari.Sandbox
import Wari.Lib.Writer
import Wari.Responses
import Wari.Lib.Checked
import Wari.Offsets
import Wari.Lib.FreeRunning
import Wari.Virtio
import Wari.Transmit
import Wari.Transmission
import Wari.Lib.Keyed
import Wari.Manifest
import Wari.Signing
import Wari.Surface
import Wari.Exactness
import Wari.Lib.Rounding
import Wari.Lib.Decimal
import Wari.Fifo
import Wari.Heap
import Wari.Numbers
import Wari.EntryFields
import Wari.HttpResponse
import Wari.WnmTable
import Wari.Lib.Leb128
import Wari.Sections
import Wari.Payload
import Wari.Lib.Padded
import Wari.ManifestBuild
import Wari.AcceptWindows
import Wari.Lib.Script
import Wari.NicDriver
import Wari.Fence
import Wari.Bringup
import Wari.Lib.Since
import Wari.Lib.Streak
import Wari.Interrupts
import Wari.Signals
import Wari.Storms
import Wari.KernelMap
import Wari.Console
import Wari.Lib.PrefixFree
import Wari.Agent
import Wari.Bystander
import Wari.Post
import Wari.Watcher
import Wari.Lib.Within
import Wari.CatchUp
