import Mos6510.Address
import Mos6510.Hexadecimal
import Mos6510.Flags
import Mos6510.Bus
import Mos6510.Ram
import Mos6510.Mode
import Mos6510.EffectiveAddress
import Mos6510.Mnemonic
import Mos6510.Opcode
import Mos6510.Arithmetic
import Mos6510.Registers
import Mos6510.Interrupt
import Mos6510.Action
import Mos6510.Effect
import Mos6510.Processor
import Mos6510.Assembly
import Mos6510.Listing
import Mos6510.TraceLine
import Mos6510.TrapTable
import Mos6510.Event
import Mos6510.Program
import Mos6510.Machine
import Mos6510.Machine.Bound
import Mos6510.Board
import Mos6510.Monitor
import Mos6510.Sweep
import Mos6510.Proofs.Execution
import Mos6510.Proofs.TrapRegistry
import Mos6510.Proofs.Arbitration
import Mos6510.Proofs.Accounting
import Mos6510.Proofs.StackCells
import Mos6510.Proofs.StackDiscipline
import Mos6510.Proofs.SingleStep
import Mos6510.Proofs.WriteFootprint
import Mos6510.Proofs.RegisterFrame
import Mos6510.Proofs.Scratch
import Mos6510.Proofs.StepCost
import Mos6510.Proofs.CycleLedger
import Mos6510.Proofs.LosslessListing
import Mos6510.Proofs.Observation
import Mos6510.Proofs.Tracing
import Mos6510.Proofs.Reset
import Mos6510.Proofs.TrapCoverage
import Mos6510.Proofs.UnambiguousListing
import Mos6510.Proofs.CarryChain
import Mos6510.Proofs.BinaryNumbers
import Mos6510.Proofs.DecimalNumbers
import Mos6510.Proofs.CombinedOperations
import Mos6510.Proofs.StepSequence
import Mos6510.Proofs.Budget
import Mos6510.Proofs.Stalling
import Mos6510.Proofs.Locality
import Mos6510.Proofs.Lockstep
import Mos6510.Proofs.ObservingTraps
import Mos6510.Proofs.MemoryRuns
import Mos6510.Proofs.StraightLine
import Mos6510.Proofs.Halting
import Mos6510.Proofs.TraceColumns
import Mos6510.Proofs.TracePrediction
import Mos6510.Proofs.BoundedTable
import Mos6510.Proofs.Resolution
import Mos6510.Proofs.ListingBoundaries
import Mos6510.Proofs.ShiftChain
import Mos6510.Proofs.PositionIndependence
import Mos6510.Proofs.TraceSpelling
import Mos6510.Proofs.LastStores
