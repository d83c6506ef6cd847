import Pone.Channel.Model
import Pone.Channel.Step
import Pone.Channel.Fifo
import Pone.Channel.Capacity
import Pone.Channel.Close
import Pone.Channel.Wakeup
import Pone.Mailbox
import Pone.Thread.Model
import Pone.Thread.Outline
import Pone.Thread.Jobs
import Pone.Thread.Program
import Pone.Thread.Sane
import Pone.Thread.Wait
import Pone.Thread.Shutdown
import Pone.Try.Model
import Pone.Try.Restore
import Pone.Try.Handlers
import Pone.ScopeChain
import Pone.Compile.Node
import Pone.Compile.Emit
import Pone.Compile.Exec
import Pone.Compile.Scopes
import Pone.Compile.Discipline
import Pone.Compile.Sound
import Pone.Compile.Resolution
import Pone.Compile.Balance
import Pone.Compile.Return
import Pone.Compile.ShortCircuit
import Pone.Compile.Loops
import Pone.Compile.Names
import Pone.Compile.Declared
import Pone.Greg.Engine
import Pone.Greg.Thunk
import Pone.Greg.Simulation
import Pone.Greg.Input
import Pone.Greg.Termination
import Pone.Greg.Lookahead
import Pone.Greg.Text
import Pone.Greg.Fits
import Pone.Greg.Invariant
import Pone.Greg.Summary
import Pone.Syntax.Tree
import Pone.Syntax.Action
import Pone.Syntax.Grammar
import Pone.Syntax.Entry
import Pone.Syntax.Number
import Pone.Syntax.Quote
import Pone.Syntax.Tags
import Pone.Syntax.Payload
import Pone.Syntax.Termination
import Pone.Syntax.Errors
import Pone.Syntax.Pool
import Pone.Syntax.Frame
import Pone.Syntax.Results
import Pone.Syntax.MapLiteral
import Pone.Refcount
import Pone.Allocator
import Pone.Truth
import Pone.CLexer
import Pone.Compile.Literal
import Pone.Compile.Params
import Pone.Marking
import Pone.Sharing
import Pone.Heap.Model
import Pone.Heap.Gc
import Pone.Heap.Collect
import Pone.Heap.Api
import Pone.Heap.Alloc
import Pone.Heap.Copy
import Pone.Heap.Leaks
import Pone.Heap.Deep
import Pone.Heap.Closure
import Pone.Heap.Threads
import Pone.Heap.Isolation
import Pone.Heap.Environment
import Pone.Heap.Shape
import Pone.Heap.Cycles
import Pone.Heap.Safety
import Pone.Heap.Operands
import Pone.Heap.Marks
import Pone.Heap.Exact
import Pone.Heap.Worker
import Pone.Heap.Delivery
import Pone.Heap.Imports
import Pone.Block
import Pone.Ary.Model
import Pone.Ary.Refine
import Pone.Ary.Run
import Pone.Ary.Index
import Pone.Table
import Pone.Map.Model
import Pone.Map.Refine
import Pone.Map.Access
import Pone.Cow
import Pone.Simulation
import Pone.Binary64
import Pone.Decimal
import Pone.Syntax.Fraction
import Pone.Str.Model
import Pone.Str.Cells
import Pone.Str.Snapshots
import Pone.Str.Stringify
import Pone.Str.Forms
import Pone.Str.Use
import Pone.CLong
import Pone.Arith
import Pone.Str.Order
import Pone.Ary.Sort
import Pone.Str.Strtol
import Pone.Str.Number
import Pone.Str.CString
import Pone.Arg
import Pone.Separated
import Pone.Ary.Match
import Pone.Str.Subscript
import Pone.Str.Hash
import Pone.Ary.Elements
import Pone.Ary.Iterate
import Pone.Range
import Pone.Primality
import Pone.Random
import Pone.Stdio
import Pone.File.Slurp
import Pone.File.Lines
import Pone.Signal
import Pone.Regex
import Pone.Printf
import Pone.Decimal.General
import Pone.Json.Text
import Pone.Json.Stringify
import Pone.Json.Denotes
import Pone.PvipString
import Pone.OpenAddressing
import Pone.Khash.Flags
import Pone.Khash.Model
import Pone.Khash.Probe
import Pone.Khash.Resize
import Pone.Khash.Operations
import Pone.Khash.Refine
import Pone.Khash.Map
