import Rinix.Lib.WhileLoop
import Rinix.Lib.ByteMemory
import Rinix.Lib.Tiling
import Rinix.Heap.Kmem
import Rinix.Heap.Header
import Rinix.Heap.Chain
import Rinix.Heap.Edits
import Rinix.Heap.Layout
import Rinix.Heap.Represents
import Rinix.Heap.Morecore
import Rinix.Heap.Kfree
import Rinix.Heap.Kmalloc
import Rinix.Heap.Scan
import Rinix.Heap.Session
import Rinix.Heap.WellFormed
import Rinix.Heap.Request
import Rinix.Heap.Termination
import Rinix.Heap.Ownership
import Rinix.Heap.Coalescing
import Rinix.Heap.Limits
import Rinix.Heap.Window
import Rinix.Heap.Refusal
import Rinix.Heap.FirstFit
import Rinix.Heap.Undo
import Rinix.Heap.Reuse
import Rinix.Heap.DoubleFree
import Rinix.Lib.BitString
import Rinix.Lib.Pool
import Rinix.Frames.Bitmap
import Rinix.Frames.Bits
import Rinix.Frames.Search
import Rinix.Frames.Refinement
import Rinix.Frames.Hint
import Rinix.Frames.CreateBitmap
import Rinix.Frames.Boot
import Rinix.Lib.Paper
import Rinix.Terminal.Tty
import Rinix.Terminal.Scroll
import Rinix.Keyboard.Handler
import Rinix.Keyboard.Modifiers
import Rinix.Stdio.Convert
import Rinix.Stdio.Text
import Rinix.Stdio.Numeral
import Rinix.Stdio.Printf
import Rinix.Stdio.Interpret
import Rinix.Frames.RegionPass
import Rinix.Frames.KernelImage
import Rinix.Frames.Placement
import Rinix.Frames.CreateMmap
import Rinix.Lib.PageTable
import Rinix.Paging.Page
import Rinix.Paging.Window
import Rinix.Paging.MapPage
import Rinix.Paging.Leftover
import Rinix.Paging.Sharing
import Rinix.Frames.FirstFree
import Rinix.Frames.RejectedFree
import Rinix.Frames.RegionRange
import Rinix.Frames.Remnants
import Rinix.Frames.Terminator
import Rinix.Strings.Memmove
import Rinix.Stdio.RoundTrip
import Rinix.Stdio.Count
import Rinix.Paging.Rights
import Rinix.Paging.Dealloc
import Rinix.Paging.Unmapped
import Rinix.Paging.CreateDir
import Rinix.Lib.LookupCache
import Rinix.Paging.Tlb
import Rinix.Paging.Coherence
import Rinix.Paging.Stale
import Rinix.Stdio.Bases
import Rinix.Keyboard.Locks
import Rinix.Timer.Wait
import Rinix.Lib.BitField
import Rinix.Descriptors.Create
import Rinix.Lib.Calls
import Rinix.Vfs.Dispatch
import Rinix.Terminal.Flash
import Rinix.Lib.SearchTree
import Rinix.Buckets.Kheap
import Rinix.Buckets.Lookup
import Rinix.Lib.I386
import Rinix.Interrupts.Stubs
import Rinix.Descriptors.Tables
import Rinix.Interrupts.Delivery
import Rinix.Lib.Pic
import Rinix.Interrupts.Controllers
import Rinix.Interrupts.Service
import Rinix.Interrupts.Requests
import Rinix.Interrupts.Path
import Rinix.Interrupts.Devices
import Rinix.Paging.Boot
import Rinix.Paging.BootMap
import Rinix.Paging.HeapPages
import Rinix.Terminal.Cursor
import Rinix.Console.Output
import Rinix.Console.Exceptions
import Rinix.Console.Panic
import Rinix.Strings.Memcpy
import Rinix.Heap.Dump
import Rinix.Timer.Clock
import Rinix.Paging.Guarded
