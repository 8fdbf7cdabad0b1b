import Dragonfly.Lib.Run
import Dragonfly.Hammer.Disk
import Dragonfly.Hammer.Blockmap.Model
import Dragonfly.Lib.Span
import Dragonfly.Hammer.Blockmap.Search
import Dragonfly.Hammer.Blockmap.Effect
import Dragonfly.Hammer.Blockmap.Ledger
import Dragonfly.Hammer.Blockmap.Cell
import Dragonfly.Hammer.Blockmap.Step
import Dragonfly.Hammer.Blockmap.Disjoint
import Dragonfly.Hammer.Blockmap.Shield
import Dragonfly.Hammer.Blockmap.Account
import Dragonfly.Hammer.Blockmap.Charge
import Dragonfly.Hammer.Blockmap.Delay
import Dragonfly.Lib.Bytes
import Dragonfly.Hammer.Fifo.Format
import Dragonfly.Hammer.Fifo.Recover
import Dragonfly.Hammer.Fifo.Chain
import Dragonfly.Hammer.Fifo.Fold
import Dragonfly.Hammer.Fifo.Select
import Dragonfly.Hammer.Fifo.Stage2
import Dragonfly.Hammer.Fifo.Stage1
import Dragonfly.Hammer.Fifo.Report
import Dragonfly.Hammer.Fifo.Rotate
import Dragonfly.Hammer.Fifo.Restart
import Dragonfly.Hammer.Fifo.Encode
import Dragonfly.Hammer.Fifo.Place
import Dragonfly.Hammer.Fifo.Lay
import Dragonfly.Hammer.Fifo.Pieces
import Dragonfly.Hammer.Fifo.Agree
import Dragonfly.Hammer.Fifo.Track
import Dragonfly.Hammer.Fifo.Endless
import Dragonfly.Lib.Fence
import Dragonfly.Hammer.Btree.Elm
import Dragonfly.Hammer.Btree.Node
import Dragonfly.Hammer.Btree.Path
import Dragonfly.Hammer.Btree.Rebalance
import Dragonfly.Hammer.Btree.Repack
import Dragonfly.Hammer.Btree.Preserve
import Dragonfly.Hammer.Btree.Cursor
import Dragonfly.Hammer.Btree.Legs
import Dragonfly.Hammer.Btree.Travel
import Dragonfly.Hammer.Btree.Follow
import Dragonfly.Hammer.Btree.Search
import Dragonfly.Hammer.Btree.Iterate
import Dragonfly.Hammer.Btree.Place
import Dragonfly.Hammer.Btree.Walk
import Dragonfly.Hammer.Btree.Seek
import Dragonfly.Hammer.Btree.Range
import Dragonfly.Hammer.Btree.Asof
import Dragonfly.Lib.Keyed
import Dragonfly.Kern.ByteRange.Model
import Dragonfly.Kern.ByteRange.Table
import Dragonfly.Kern.ByteRange.Clip
import Dragonfly.Kern.ByteRange.Sweep
import Dragonfly.Kern.ByteRange.Update
import Dragonfly.Kern.ByteRange.Grant
import Dragonfly.Kern.ByteRange.Threads
import Dragonfly.Kern.ByteRange.History
import Dragonfly.Kern.ByteRange.Waiting
import Dragonfly.Hammer.Directory.Namekey
import Dragonfly.Hammer.Directory.Model
import Dragonfly.Hammer.Directory.Entries
import Dragonfly.Hammer.Directory.Effect
import Dragonfly.Hammer.Directory.Links
import Dragonfly.Hammer.Directory.Lookup
import Dragonfly.Hammer.Prune.Model
import Dragonfly.Hammer.Prune.Windows
import Dragonfly.Hammer.Prune.Retain
import Dragonfly.Hammer.Prune.Resume
import Dragonfly.Lib.Bitmap
import Dragonfly.Kern.Alist.Model
import Dragonfly.Kern.Alist.Shape
import Dragonfly.Kern.Alist.Alloc
import Dragonfly.Kern.Alist.Free
import Dragonfly.Kern.Alist.Sound
import Dragonfly.Kern.Alist.Hint
import Dragonfly.Kern.Blist.Model
import Dragonfly.Kern.Blist.Shape
import Dragonfly.Kern.Blist.Alloc
import Dragonfly.Kern.Blist.Free
import Dragonfly.Kern.Blist.Fill
import Dragonfly.Kern.Blist.Sound
import Dragonfly.Kern.Layout
import Dragonfly.Lib.Words
import Dragonfly.Vmm.Apic.Model
import Dragonfly.Vmm.Apic.Service
import Dragonfly.Vmm.Apic.System
import Dragonfly.Vmm.Apic.Guest
import Dragonfly.Vmm.Apic.Delivery
import Dragonfly.Vmm.Mem.Model
import Dragonfly.Vmm.Mem.Pool
import Dragonfly.Vmm.Mem.Steal
import Dragonfly.Lib.Seq
import Dragonfly.Net.Sack.Model
import Dragonfly.Net.Sack.Lookup
import Dragonfly.Net.Sack.Board
import Dragonfly.Net.Sack.Insert
import Dragonfly.Net.Sack.Sender
import Dragonfly.Lib.PageTable
import Dragonfly.Vmm.Paging.Model
import Dragonfly.Vmm.Paging.Pieces
import Dragonfly.Vmm.Paging.Ept
import Dragonfly.Vmm.Paging.Views
import Dragonfly.Net.Reass.Model
import Dragonfly.Net.Reass.Pieces
import Dragonfly.Net.Reass.Stream
import Dragonfly.Net.Reass.Fin
import Dragonfly.Net.Reass.Input
import Dragonfly.Kern.Sem.Model
import Dragonfly.Kern.Sem.Undo
import Dragonfly.Kern.Sem.Semop
import Dragonfly.Kern.Sem.Pool
import Dragonfly.Kern.Sem.Wait
import Dragonfly.Kern.Sem.Wakeup
import Dragonfly.Kern.Slab.Index
import Dragonfly.Lib.Chain
import Dragonfly.Lib.Slots
import Dragonfly.Kern.Slab.Chunk
import Dragonfly.Kern.Slab.Owner
import Dragonfly.Kern.Slab.Take
import Dragonfly.Kern.Slab.Make
import Dragonfly.Kern.Slab.Pages
import Dragonfly.Kern.Slab.Free
import Dragonfly.Kern.Slab.Handout
import Dragonfly.Kern.Slab.Custody
import Dragonfly.Kern.Slab.Cover
import Dragonfly.Hammer.Btree.Separator
import Dragonfly.Kern.Alist.Info
import Dragonfly.Kern.Blist.Resize
import Dragonfly.Hammer.Blockmap.Progress
import Dragonfly.Hammer.Blockmap.Exhaust
import Dragonfly.Kern.ByteRange.Getlock
import Dragonfly.Kern.ByteRange.Query
import Dragonfly.Net.Sack.Pipe
import Dragonfly.Net.Sack.History
import Dragonfly.Vmm.Apic.Msr
import Dragonfly.Kern.Number
import Dragonfly.Vmm.Vdev
import Dragonfly.Hammer.Snapshot
import Dragonfly.Hammer.Softlink
import Dragonfly.Net.Reass.Report
import Dragonfly.Net.Reass.Reported
import Dragonfly.Kern.Sem.Ledger
import Dragonfly.Kern.Slab.Intact
import Dragonfly.Kern.Slab.Stats
import Dragonfly.Kern.Slab.Balance
import Dragonfly.Kern.Slab.Books
import Dragonfly.Kern.Slab.Realloc
import Dragonfly.Kern.Slab.Account
import Dragonfly.Jscan.File
import Dragonfly.Jscan.Entries
import Dragonfly.Jscan.Scan
import Dragonfly.Jscan.Read
import Dragonfly.Jscan.Seek
import Dragonfly.Jscan.Sought
import Dragonfly.Jscan.Ends
import Dragonfly.Jscan.Torn
import Dragonfly.Jscan.Agree
import Dragonfly.Hammer.Btree.Shortcut
import Dragonfly.Lib.Enough
import Dragonfly.Lib.Redblack
import Dragonfly.Kern.Rb.Insert
import Dragonfly.Kern.Rb.Next
import Dragonfly.Kern.Rb.Remove
import Dragonfly.Kern.Rb.Scan
import Dragonfly.Kern.Rb.Find
import Dragonfly.Kern.Rb.Whole
