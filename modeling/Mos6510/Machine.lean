import Mos6510.Event
import Mos6510.Program
import Mos6510.TraceLine
import Mos6510.TrapTable

/-!
The machine: a processor with its traps, its trace switch and a journal of events, run by programs
of the host. When a step is about to carry out the instruction at a trapped address, it first runs
the handler that waits there. The handler is taken out of the table while it runs, so the steps that
it takes itself pass its address without running it again.

Handlers can step, and so run handlers, without end. Running a program therefore takes a bound on
how deep handlers nest and how often a loop turns; a run that reaches the bound has no result, and a
result does not depend on the bound.
-/

namespace Mos6510

/-- A processor with what surrounds it. -/
structure Machine (β ν : Type) where
  processor : Processor β
  traps : TrapTable (Handler β ν)
  tracing : Bool
  sink : Bool
  /-- The handlers that run, the innermost first, with the addresses that they were called at. -/
  running : List (Address × Handler β ν)
  /-- What has happened, the latest first. -/
  journal : List (Event ν)

/-- How a machine is set up. -/
structure Setup where
  trapCapacity : Nat := TrapTable.defaultCapacity
  tracing : Bool := false
  deriving DecidableEq, Repr

namespace Machine

variable {β ν : Type} [Bus β]

/-- Enters events into the journal, the first of the list as the earliest. -/
def record (machine : Machine β ν) (events : List (Event ν)) : Machine β ν :=
  { machine with journal := events.reverse ++ machine.journal }

/-- The journal in the order in which things happened. -/
def history (machine : Machine β ν) : List (Event ν) := machine.journal.reverse

def powerOn (setup : Setup) (bus : β) : Machine β ν :=
  let processor := Processor.powerOn bus
  { processor
    traps := .empty setup.trapCapacity
    tracing := setup.tracing
    sink := false
    running := []
    journal := [.reset processor.registers.pc] }

/-- The settings that the host may look at. -/
def panel (machine : Machine β ν) : Panel where
  tracing := machine.tracing
  trapCount := machine.traps.size
  trapCapacity := machine.traps.capacity

/-- What a change of the host lets the world see. -/
def changeEvents (processor : Processor β) : Change β → List (Event ν)
  | .driveNmi level => [.nmiDriven level]
  | .write address value => [.wrote address value]
  | .reset => [.reset processor.reset.registers.pc]
  | _ => []

def change (machine : Machine β ν) (operation : Change β) : Machine β ν :=
  { machine with processor := operation.apply machine.processor }.record
    (changeEvents machine.processor operation)

/-- The writes of an effect as events. -/
def writeEvents (effect : Effect) : List (Event ν) :=
  effect.writes.map fun w => .wrote w.address w.value

def service (machine : Machine β ν) (kind : Interrupt) : Machine β ν :=
  let before := machine.processor
  let after := before.service kind
  { machine with processor := after }.record
    (writeEvents (before.entry kind) ++
      [Event.serviced kind before.registers.pc after.registers.pc])

/-- What the trace switch adds to the journal before an instruction is carried out. -/
def traceEvents (machine : Machine β ν) : List (Event ν) :=
  if machine.tracing then
    let line := machine.processor.traceLine
    .traced line :: if machine.sink then [.sank line] else []
  else []

/-- What an instruction adds to the journal. -/
def executionEvents (processor : Processor β) : List (Event ν) :=
  let address := processor.registers.pc
  let opcode := processor.opcodeByte
  writeEvents processor.effect ++
    (if processor.effect.halts && !processor.jammed then [.jammed opcode address] else []) ++
    [.executed address opcode processor.cost]

def execute (machine : Machine β ν) : Machine β ν :=
  { machine with processor := machine.processor.execute }.record
    (machine.traceEvents ++ executionEvents machine.processor)

/-- Calls the handler that waits at the program counter: takes it out of the table and returns it.
Without one there is nothing to call. -/
def enterTrap? (machine : Machine β ν) : Option (Program β ν × Machine β ν) :=
  let address := machine.processor.registers.pc
  (machine.traps.take? address).map fun (handler, traps) =>
    (handler address,
      { machine with traps, running := (address, handler) :: machine.running }.record
        [.trapEntered address])

/-- Ends the innermost handler and puts it back. -/
def leaveTrap (machine : Machine β ν) : Machine β ν :=
  match machine.running with
  | [] => machine
  | (address, handler) :: outer =>
    { machine with traps := machine.traps.restore address handler, running := outer }.record
      [.trapLeft address]

/-- Registers a trap, and tells whether there was room. -/
def registerTrap (machine : Machine β ν) (address : Address) (handler : Handler β ν) :
    Bool × Machine β ν :=
  match machine.traps.register? address handler with
  | some traps => (true, { machine with traps })
  | none => (false, machine.record [.trapRefused machine.traps.capacity address])

/-- Removes a trap, and tells whether there was one. -/
def removeTrap (machine : Machine β ν) (address : Address) : Bool × Machine β ν :=
  (machine.traps.contains address, { machine with traps := machine.traps.remove address })

/-- A way to run programs, which has no result for some of them. -/
abbrev Runner (β ν : Type) := Program β ν → Machine β ν → Option (Machine β ν)

/-- One step: enters the handler of an interrupt, or else carries out an instruction, after the
handler of the trap there. Handlers are run by the given runner. -/
def step (run : Runner β ν) (machine : Machine β ν) : Option (Nat × Machine β ν) :=
  match machine.processor.pendingInterrupt with
  | some kind => some (Interrupt.cycles, machine.service kind)
  | none =>
    match machine.enterTrap? with
    | none => some (machine.processor.cost, machine.execute)
    | some (handler, entered) =>
      (run handler entered).map fun finished =>
        let resumed := finished.leaveTrap
        (resumed.processor.cost, resumed.execute)

/-- Steps while a condition holds, at most `turns` times. -/
def stepWhile (run : Runner β ν) (condition : Processor β → Bool) (turns : Nat)
    (machine : Machine β ν) : Option (Machine β ν) :=
  if condition machine.processor then
    match turns with
    | 0 => none
    | turns + 1 => (machine.step run).bind fun (_, next) => stepWhile run condition turns next
  else some machine

/-- Runs a program whose handlers are run by the given runner and whose loops turn at most `turns`
times. -/
def runWith (run : Runner β ν) (turns : Nat) : Runner β ν
  | .done, machine => some machine
  | .look next, machine => runWith run turns (next machine.processor) machine
  | .survey next, machine => runWith run turns (next machine.panel) machine
  | .note entry next, machine => runWith run turns next (machine.record [.noted entry])
  | .change operation next, machine => runWith run turns next (machine.change operation)
  | .setTracing on next, machine => runWith run turns next { machine with tracing := on }
  | .setSink on next, machine => runWith run turns next { machine with sink := on }
  | .step next, machine =>
    (machine.step run).bind fun (cost, after) => runWith run turns (next cost) after
  | .stepWhile condition next, machine =>
    (machine.stepWhile run condition turns).bind fun after => runWith run turns next after
  | .register address handler next, machine =>
    let (accepted, after) := machine.registerTrap address handler
    runWith run turns (next accepted) after
  | .remove address next, machine =>
    let (present, after) := machine.removeTrap address
    runWith run turns (next present) after

/-- Runs a program within a bound on the nesting of handlers and on the turns of each loop; no
result means that the bound was reached. -/
def run? : (bound : Nat) → Runner β ν
  | 0 => fun _ _ => none
  | bound + 1 => runWith (run? bound) bound

end Machine

end Mos6510
