import ObjectHeap.Heap.Run
import ObjectHeap.Machine.Run
import ObjectHeap.Proofs.Table.Places
import ObjectHeap.Proofs.Table.Searchable
import ObjectHeap.Proofs.Table.Layout
import ObjectHeap.Proofs.Table.Bindings
import ObjectHeap.Proofs.Table.Content
import ObjectHeap.Proofs.Heap.Marking
import ObjectHeap.Proofs.Heap.Slots
import ObjectHeap.Proofs.Heap.Accounts
import ObjectHeap.Proofs.Heap.Sound
import ObjectHeap.Proofs.Heap.Collection
import ObjectHeap.Proofs.Heap.Interning
import ObjectHeap.Proofs.Heap.Kept
import ObjectHeap.Proofs.Heap.History
import ObjectHeap.Proofs.Heap.Allocator
import ObjectHeap.Proofs.Heap.Lookups
import ObjectHeap.Proofs.Heap.Ledger
import ObjectHeap.Proofs.Heap.WeakTable
import ObjectHeap.Proofs.Machine.Sound
import ObjectHeap.Proofs.Machine.Clearing
import ObjectHeap.Proofs.Machine.Steps
import ObjectHeap.Proofs.Machine.Closure
import ObjectHeap.Proofs.Machine.Effects
import ObjectHeap.Proofs.Machine.History
import ObjectHeap.Proofs.Machine.Rooted
import ObjectHeap.Proofs.Machine.Retraction
import ObjectHeap.Proofs.Machine.Stale
import ObjectHeap.Proofs.Machine.Interning
import ObjectHeap.Proofs.Abstract.Basic
import ObjectHeap.Proofs.Abstract.Represents
import ObjectHeap.Proofs.Abstract.Refinement
import ObjectHeap.Proofs.Program.Session
import ObjectHeap.Proofs.Abstract.Simulation
import ObjectHeap.Proofs.Program.Transparency
import ObjectHeap.Proofs.Renaming.Table
import ObjectHeap.Proofs.Renaming.Heap
import ObjectHeap.Proofs.Renaming.Machine
import ObjectHeap.Proofs.Renaming.Request
import ObjectHeap.Proofs.Machine.Reset
import ObjectHeap.Proofs.Machine.Shortfall
import ObjectHeap.Proofs.Program.Renewal
import ObjectHeap.Proofs.Table.Operations
import ObjectHeap.Proofs.Machine.Tables
import ObjectHeap.Proofs.Machine.Reading
import ObjectHeap.Proofs.Machine.Chronicle
import ObjectHeap.Proofs.Machine.Globals
import ObjectHeap.Proofs.Machine.Properties
import ObjectHeap.Proofs.Table.Walk
import ObjectHeap.Proofs.Heap.Confluence
import ObjectHeap.Proofs.Machine.Concatenation
import ObjectHeap.Proofs.Machine.Repetition
import ObjectHeap.Proofs.Table.Reuse
import ObjectHeap.Proofs.Table.Growth
import ObjectHeap.Proofs.Heap.Overflow
import ObjectHeap.Proofs.Machine.Room
import ObjectHeap.Proofs.Machine.Pacing
import ObjectHeap.Proofs.Heap.Tracing
import ObjectHeap.Proofs.Machine.Unmarked
import ObjectHeap.Proofs.Table.Seeking
import ObjectHeap.Proofs.Table.Rebuilding
import ObjectHeap.Proofs.Table.Consulting
