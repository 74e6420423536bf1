import Mos6510.Processor

/-!
Programs of the host: what a host does to a machine, one operation after another. What it does next
may depend on everything that it has been told so far. The handler of a trap is such a program, and
the programs that it registers or steps into may in turn run handlers.
-/

namespace Mos6510

/-- What a host can do to a processor between steps. -/
inductive Change (β : Type) where
  /-- Sets registers and flags. -/
  | registers (update : Registers → Registers)
  | driveNmi (level : Bool)
  /-- Drives the host's side of the interrupt-request line. -/
  | driveIrq (level : Bool)
  | write (address : Address) (value : UInt8)
  /-- Reaches past the bus to what is behind it. -/
  | bus (update : β → β)
  | reset

/-- The processor after a change. -/
def Change.apply {β : Type} [Bus β] (change : Change β) (processor : Processor β) : Processor β :=
  match change with
  | .registers update => { processor with registers := update processor.registers }
  | .driveNmi level => { processor with lines := processor.lines.driveNmi level }
  | .driveIrq level => { processor with lines := processor.lines.driveIrq level }
  | .write address value => { processor with bus := Bus.write processor.bus address value }
  | .bus update => { processor with bus := update processor.bus }
  | .reset => processor.reset

/-- The settings of a machine that are not part of its processor. -/
structure Panel where
  tracing : Bool
  trapCount : Nat
  trapCapacity : Nat
  deriving DecidableEq, Repr

/-- A program of the host, which takes notes of type `ν`. -/
inductive Program (β ν : Type) where
  | done
  /-- Looks at the processor. -/
  | look (next : Processor β → Program β ν)
  /-- Looks at the settings. -/
  | survey (next : Panel → Program β ν)
  /-- Takes a note. -/
  | note (entry : ν) (next : Program β ν)
  /-- Changes the processor. -/
  | change (operation : Change β) (next : Program β ν)
  /-- Turns tracing on or off. -/
  | setTracing (on : Bool) (next : Program β ν)
  /-- Installs or removes the sink for trace lines. -/
  | setSink (on : Bool) (next : Program β ν)
  /-- Steps once and is told the cycles. -/
  | step (next : Nat → Program β ν)
  /-- Steps for as long as a condition on the processor holds. -/
  | stepWhile (condition : Processor β → Bool) (next : Program β ν)
  /-- Registers a trap, whose handler is told the address, and is told whether there was room. -/
  | register (address : Address) (handler : Address → Program β ν) (next : Bool → Program β ν)
  /-- Removes a trap and is told whether there was one. -/
  | remove (address : Address) (next : Bool → Program β ν)

/-- The handler of a trap: a program that depends on the address of the trap. -/
abbrev Handler (β ν : Type) := Address → Program β ν

namespace Program

variable {β ν : Type}

/-- Steps until a number of cycles has been spent, and is told how many were. The last step may
spend more than what was left. -/
def runFor (budget : UInt64) (next : UInt64 → Program β ν) : Program β ν :=
  .look fun start =>
    .stepWhile (fun processor => decide (processor.cycles < start.cycles + budget))
      (.look fun finish => next (finish.cycles - start.cycles))

/-- Steps, at most `limit` times, until a step leaves the program counter where it was. What follows
is told the cycles spent since the counter stood at `start`, or nothing if no step did so. -/
def stepUntilStalled (start : UInt64) (next : Option UInt64 → Program β ν) :
    (limit : Nat) → Program β ν
  | 0 => next none
  | limit + 1 =>
    .look fun before =>
      .step fun _ =>
        .look fun after =>
          if after.registers.pc = before.registers.pc then next (some (after.cycles - start))
          else stepUntilStalled start next limit

/-- Steps, at most `limit` times, until a step leaves the program counter where it was. What follows
is told the cycles spent, or nothing if no step did so. -/
def runUntilStalled (limit : Nat) (next : Option UInt64 → Program β ν) : Program β ν :=
  .look fun start => stepUntilStalled start.cycles next limit

end Program

end Mos6510
