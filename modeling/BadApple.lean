import BadApple.Vme.Bounds
import BadApple.Vme.Tiling
import BadApple.Process.Children
import BadApple.Cache.Bytes
import BadApple.Cache.Recency
import BadApple.Shared.Safety
import BadApple.Shared.Handles
import BadApple.Heap.Frame
import BadApple.Vmm.Frames
import BadApple.Vmm.Destroy
import BadApple.Vmm.Fork
import BadApple.Threads.OnePlace
import BadApple.Sys.Tables
import BadApple.Sys.UserMemory
import BadApple.Sys.Descriptors
import BadApple.Sys.ReadFile
import BadApple.Threads.Barrier
import BadApple.Threads.BlockingQueue
import BadApple.Threads.BoundedBuffer
import BadApple.Threads.Promise
import BadApple.Vmm.SharedPages
import BadApple.Vmm.Contents
import BadApple.Vmm.Mappings
import BadApple.Sys.Buffers
import BadApple.Sys.Offsets
import BadApple.Heap.BestFit
import BadApple.Heap.DoubleFree
import BadApple.Fs.FindRounds
import BadApple.Fs.ReadAll
import BadApple.Fs.Blocks
import BadApple.Fs.Scans
import BadApple.Fs.PathQueue
import BadApple.Elf.Load
import BadApple.Elf.Writes
import BadApple.Boot.Entries
import BadApple.Threads.SpinLock
import BadApple.Vga.Draw
import BadApple.Utils.Meaning
import BadApple.Threads.SleepQueue
import BadApple.Cache.Callers
import BadApple.UserHeap.Realloc
import BadApple.Sys.LoadArgs
import BadApple.Exec.Model
import BadApple.Exec.Arguments
import BadApple.Exec.Load
import BadApple.Exec.Replace
import BadApple.Lib.Paths
import BadApple.Lib.Separate
import BadApple.Vmm.Access
import BadApple.Vmm.Processes
import BadApple.Exec.Image
import BadApple.Vmm.Boot
import BadApple.Fs.Mount
import BadApple.Fs.Entries
import BadApple.Fs.Volume
import BadApple.Fs.Resolve
import BadApple.Lib.Fair
import BadApple.Boot.Cores
import BadApple.Boot.KernelInit
import BadApple.Lib.Receipts
import BadApple.Cache.Answers
