import RadixSort.Fault
import RadixSort.Word
import RadixSort.Chunks
import RadixSort.Interleaving
import RadixSort.Key.Digit
import RadixSort.Key.Format
import RadixSort.Key.Integer
import RadixSort.Key.Padding
import RadixSort.Settings
import RadixSort.Window
import RadixSort.Memory
import RadixSort.Window.Derivation
import RadixSort.Window.Descriptor
import RadixSort.Count.Histogram
import RadixSort.Count.Snake
import RadixSort.Partition.Rule
import RadixSort.Partition.Scatter
import RadixSort.Partition.Cycle
import RadixSort.Partition.Frame
import RadixSort.Comparison
import RadixSort.Resources
import RadixSort.Engine.Work
import RadixSort.Engine.SmallJob
import RadixSort.Engine.RadixStep
import RadixSort.Engine.Dispatch
import RadixSort.Engine.StepProtocol
import RadixSort.Engine.Recursion
import RadixSort.Scheduler.Pool
import RadixSort.Scheduler.Session
import RadixSort.Scheduler.LevelOrder
import RadixSort.Scheduler.Crew
import RadixSort.Scheduler.Lifecycle
import RadixSort.Msd
import RadixSort.Lsd.Block
import RadixSort.Lsd.Pass
import RadixSort.Lsd
import RadixSort.Proofs.Blocks
import RadixSort.Proofs.Intervals
import RadixSort.Proofs.Classes
import RadixSort.Proofs.Count.Layout
import RadixSort.Proofs.Count.Checked
import RadixSort.Proofs.Ensures
import RadixSort.Proofs.Partition.Scatter
import RadixSort.Proofs.Count.Snake
import RadixSort.Proofs.Count.Shares
import RadixSort.Proofs.Count.Sums
import RadixSort.Proofs.Lsd.Block
import RadixSort.Proofs.Lsd.Pass
import RadixSort.Proofs.Key.Byte
import RadixSort.Proofs.Lsd.Sort
import RadixSort.Proofs.Lsd.Outcome
import RadixSort.Proofs.Lsd.Feeding
import RadixSort.Proofs.Lsd.Interleaved
import RadixSort.Proofs.Partition.Cycle
import RadixSort.Proofs.Partition.Rounds
import RadixSort.Proofs.Partition.Boundaries
import RadixSort.Proofs.Engine.Sorts
import RadixSort.Proofs.Memory
import RadixSort.Proofs.Window.Derivation
import RadixSort.Proofs.Window.CopyBack
import RadixSort.Proofs.Ledger
import RadixSort.Proofs.Engine.Work
import RadixSort.Proofs.Engine.Underway
import RadixSort.Proofs.Engine.SmallJob
import RadixSort.Proofs.Chunks
import RadixSort.Proofs.Engine.RadixStep
import RadixSort.Proofs.Engine.Pieces
import RadixSort.Proofs.Engine.Balance
import RadixSort.Proofs.Engine.Slots
import RadixSort.Proofs.Engine.Phases
import RadixSort.Proofs.Engine.FirstPhase
import RadixSort.Proofs.Engine.SecondPhase
import RadixSort.Proofs.Engine.Uninterrupted
import RadixSort.Proofs.Engine.Actions
import RadixSort.Proofs.Engine.Interleaved
import RadixSort.Proofs.Engine.Stage
import RadixSort.Proofs.Engine.Dispatch
import RadixSort.Proofs.Engine.Perform
import RadixSort.Proofs.Msd.Run
import RadixSort.Proofs.Msd.ByTurns
import RadixSort.Proofs.Msd.Sorted
import RadixSort.Proofs.Msd.Locality
import RadixSort.Proofs.Engine.Descent
import RadixSort.Proofs.Engine.Untouched
import RadixSort.Proofs.Engine.Tiling
import RadixSort.Proofs.Msd.Outcome
import RadixSort.Proofs.Engine.Depths
import RadixSort.Proofs.Msd.Termination
import RadixSort.Proofs.Msd.Recursion
import RadixSort.Proofs.Msd.InFlight
import RadixSort.Proofs.Scheduler.Crew
import RadixSort.Proofs.Scheduler.Drained
import RadixSort.Proofs.Scheduler.Moves
import RadixSort.Proofs.Scheduler.Families
import RadixSort.Proofs.Msd.Remaining
import RadixSort.Proofs.Msd.Faultless
import RadixSort.Proofs.Msd.Comparisons
import RadixSort.Proofs.Msd.Handed
import RadixSort.Proofs.Msd.Digitwise
import RadixSort.Proofs.Key.Digit
import RadixSort.Proofs.Key.Integer
import RadixSort.Proofs.Key.Order
import RadixSort.Proofs.Key.Padded
import RadixSort.Proofs.Msd.Keys
import RadixSort.Proofs.Scheduler.Followed
import RadixSort.Proofs.Scheduler.Turns
import RadixSort.Proofs.Scheduler.Wakeups
import RadixSort.Proofs.Scheduler.Verdict
import RadixSort.Proofs.Scheduler.Afterwards
import RadixSort.Proofs.Scheduler.Progress
import RadixSort.Proofs.Scheduler.InOrder
import RadixSort.Proofs.Scheduler.Lifecycle
import RadixSort.Proofs.Scheduler.Serial
import RadixSort.Proofs.Scheduler.OneByOne
import RadixSort.Proofs.Scheduler.Session
import RadixSort.Proofs.Scheduler.Log
import RadixSort.Proofs.Scheduler.BreadthFirst
