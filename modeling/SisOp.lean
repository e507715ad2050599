import SisOp.Console.Input
import SisOp.Console.Keyboard
import SisOp.Console.Monitor
import SisOp.Console.Readline
import SisOp.Console.Screen
import SisOp.Console.Session
import SisOp.Fsformat.Fits
import SisOp.Fsformat.Image
import SisOp.Fsformat.Layout
import SisOp.Fsformat.Served
import SisOp.Fsformat.Written
import SisOp.Jos.Boot
import SisOp.Jos.Deliver
import SisOp.Jos.Effects
import SisOp.Jos.Env
import SisOp.Jos.Faults
import SisOp.Jos.LargePages
import SisOp.Jos.MemInit
import SisOp.Jos.Mmu
import SisOp.Jos.Pmap
import SisOp.Jos.Syscall
import SisOp.Jos.Trap
import SisOp.Kdebug.Binsearch
import SisOp.Kdebug.Brackets
import SisOp.Kdebug.Eip
import SisOp.Kdebug.Trusted
import SisOp.Lib.Blocks
import SisOp.Lib.Cells
import SisOp.Lib.Chain
import SisOp.Lib.Fields
import SisOp.Lib.Prog
import SisOp.Lib.RefCount
import SisOp.Lib.RefPool
import SisOp.Lib.Ring
import SisOp.Lib.Run
import SisOp.Lib.Sieve
import SisOp.Lib.Slots
import SisOp.Lib.Span
import SisOp.Lib.StoreBuffer
import SisOp.Loader.Image
import SisOp.Loader.LoadIcode
import SisOp.Loader.MapSegment
import SisOp.Memory.Calls
import SisOp.Memory.Contents
import SisOp.Memory.Cputs
import SisOp.Memory.Dirs
import SisOp.Memory.Exhausted
import SisOp.Memory.Faults
import SisOp.Memory.FirstBad
import SisOp.Memory.Inv
import SisOp.Memory.Ledger
import SisOp.Memory.Ops
import SisOp.Memory.SetTrapframe
import SisOp.Memory.Total
import SisOp.Memory.UserBytes
import SisOp.Memory.UserMem
import SisOp.Pgfault.Frames
import SisOp.Pgfault.Instrs
import SisOp.Pgfault.Nested
import SisOp.Pgfault.Resume
import SisOp.Pgfault.Upcall
import SisOp.Primes.Criba
import SisOp.Primes.Flujo
import SisOp.Primes.Procesos
import SisOp.Primes.Turnos
import SisOp.Printf.Format
import SisOp.Printf.Pieces
import SisOp.Printf.RoundTrip
import SisOp.Printf.Sinks
import SisOp.Runs.Booted
import SisOp.Runs.Drained
import SisOp.Runs.Envids
import SisOp.Runs.Exec
import SisOp.Runs.Fork
import SisOp.Runs.NoPage
import SisOp.Runs.Scene
import SisOp.Sched.Indexed
import SisOp.Sched.Inv
import SisOp.Sched.OneCpu
import SisOp.Sched.RoundRobin
import SisOp.Sched.Step
import SisOp.Server.Bitmap
import SisOp.Server.Blocks
import SisOp.Server.Buffers
import SisOp.Server.Bytes
import SisOp.Server.Cache
import SisOp.Server.Content
import SisOp.Server.Creating
import SisOp.Server.FailedWrite
import SisOp.Server.File
import SisOp.Server.FileId
import SisOp.Server.Flush
import SisOp.Server.GetBlock
import SisOp.Server.InFile
import SisOp.Server.Indirect
import SisOp.Server.Lookup
import SisOp.Server.Machine
import SisOp.Server.Moves
import SisOp.Server.Owner
import SisOp.Server.ReadWrite
import SisOp.Server.Requests
import SisOp.Server.Resident
import SisOp.Server.Serve
import SisOp.Server.SizeRuns
import SisOp.Server.Slots
import SisOp.Server.Sound
import SisOp.Server.Truncate
import SisOp.Server.Walk
import SisOp.Server.Writing
import SisOp.Shell.Background
import SisOp.Shell.Bounds
import SisOp.Shell.Exec
import SisOp.Shell.Parsing
import SisOp.Shell.Pipeline
import SisOp.Shell.Redirs
import SisOp.Shell.Tree
import SisOp.Shell.Wiring
import SisOp.Shell.Words
import SisOp.Smp.Kernel
import SisOp.Smp.Mutex
import SisOp.Smp.Spinlock
import SisOp.Startup.Exposed
import SisOp.Startup.First
import SisOp.Startup.FreeList
import SisOp.Startup.LargePages
import SisOp.Startup.Mapping
import SisOp.Startup.Mmio
import SisOp.Startup.Sort
import SisOp.Startup.State
import SisOp.Startup.Windows
import SisOp.User.Args
import SisOp.User.Descriptors
import SisOp.User.Devpipe
import SisOp.User.Dup
import SisOp.User.Fifo
import SisOp.User.Fsipc
import SisOp.User.Gettoken
import SisOp.User.InitStack
import SisOp.User.Mailbox
import SisOp.User.PipeClosed
import SisOp.User.Runcmd
import SisOp.User.Spawn
import SisOp.Xargs.Lineas
