import Mos6510.Machine

/-!
What a step notes down for itself: the penalty of the instruction, whether the last operand lay in another
page than its base, and how the step found the request line. The notes of one step are still there when
the next one begins, also when the next one is a step of a handler and the first one is not done yet.
Main statement: a machine that carries such notes along, into handlers and out of them, and counts its
cycles by them, does what the machine without notes does, whatever it has noted down before.
-/

namespace Mos6510

variable {β ν : Type}

/-- What a step notes down for itself. No host can look at it, and no step begins by wiping it out. -/
structure Scratch where
  /-- The cycles beyond the fixed part of the opcode, as far as they are counted. -/
  penalty : Nat
  /-- Whether the operand that was found last lies in another page than its base. -/
  crossed : Bool
  /-- The request line as the step that looked at it last has found it. -/
  requested : Bool
  deriving DecidableEq, Repr

namespace Scratch

/-- Nothing noted down, as after a reset. -/
def blank : Scratch := ⟨0, false, false⟩

/-- Samples the request line, and decides by the sample which interrupt to service. -/
def poll [Bus β] (scratch : Scratch) (processor : Processor β) : Option Interrupt × Scratch :=
  let sampled := { scratch with requested := processor.irqAsserted }
  (if processor.lines.nmiPending then some .nmi
    else if sampled.requested && !processor.registers.flags.interruptDisable then some .irq
    else none,
    sampled)

/-- Finds an operand. -/
def find (target : EffectiveAddress) (scratch : Scratch) : Scratch :=
  { scratch with crossed := target.crossesPage }

/-- Waits a number of cycles, and one more if the operand that was found last lies in another page. -/
def wait (cycles : Nat) (scratch : Scratch) : Scratch :=
  { scratch with penalty := scratch.penalty + cycles + if scratch.crossed then 1 else 0 }

/-- Carries out an instruction, as far as it uses the scratch. The penalty and the crossing are wiped
out here and not when the step begins, since a handler may have stepped in between. -/
def carryOut (opcode : Opcode) (read : Address → UInt8) (r : Registers) (scratch : Scratch) :
    Scratch :=
  let target := opcode.mode.resolve read r.pc r.x r.y
  let wiped := { scratch with penalty := 0, crossed := false }
  match opcode.mnemonic.action with
  | .read _ => if opcode.mode.operandBytes = 0 then wiped else (wiped.find target).wait 0
  | .store _ _ | .jump | .call => wiped.find target
  | .modify _ _ => if opcode.mode = .accumulator then wiped else wiped.find target
  | .branch condition =>
    if condition r.flags then (wiped.find target).wait 1 else wiped.find target
  | _ => wiped

/-- The sample is that of this step, and decides as the line itself does. -/
theorem poll_eq [Bus β] (scratch : Scratch) (processor : Processor β) :
    scratch.poll processor =
      (processor.pendingInterrupt, { scratch with requested := processor.irqAsserted }) := rfl

/-- The decision for an interrupt does not depend on the scratch. -/
theorem poll_fst [Bus β] (scratch : Scratch) (processor : Processor β) :
    (scratch.poll processor).1 = processor.pendingInterrupt := by
  rw [poll_eq]

end Scratch

/-- Where the penalty of an instruction comes from: the page of an operand that is read, or a branch that
is taken. -/
theorem Opcode.penalty_effect_eq (read : Address → UInt8) (r : Registers) (opcode : Opcode) :
    (opcode.effect read r).penalty =
      match opcode.mnemonic.action with
      | .read _ => (opcode.mode.resolve read r.pc r.x r.y).crossing
      | .branch condition =>
        if condition r.flags then 1 + (opcode.mode.resolve read r.pc r.x r.y).crossing else 0
      | _ => 0 := by
  unfold effect
  cases opcode.mnemonic.action with
  | modify alter use => dsimp only; split <;> rfl
  | branch condition => dsimp only; split <;> rfl
  | _ => rfl

/-- The cycles of an instruction do not depend on the scratch. -/
theorem Scratch.penalty_carryOut (opcode : Opcode) (read : Address → UInt8) (r : Registers)
    (scratch : Scratch) :
    (scratch.carryOut opcode read r).penalty = (opcode.effect read r).penalty := by
  rw [Opcode.penalty_effect_eq, carryOut]
  cases opcode.mnemonic.action with
  | read use =>
      dsimp only
      split
      · next hNone => cases hMode : opcode.mode <;> first | rfl | (rw [hMode] at hNone; cases hNone)
      · exact Nat.zero_add _
  | modify alter use => dsimp only; split <;> rfl
  | branch condition => dsimp only; split <;> rfl
  | _ => rfl

/-- A machine with what its steps have noted down. -/
structure Noting (β ν : Type) where
  machine : Machine β ν
  scratch : Scratch

namespace Noting

variable [Bus β]

abbrev Runner (β ν : Type) := Program β ν → Noting β ν → Option (Noting β ν)

/-- Carries out the instruction at the program counter. It takes the cycles that have been noted down for
it, and these are counted, reported and entered into the journal. -/
def execute (noting : Noting β ν) : Nat × Noting β ν :=
  let machine := noting.machine
  let before := machine.processor
  let effect := before.effect
  let scratch := noting.scratch.carryOut before.opcode before.read before.registers
  let cost := before.opcode.cycles + scratch.penalty
  let address := before.registers.pc
  (cost,
    { machine := { machine with processor := before.apply effect cost }.record
        (machine.traceEvents ++ (Machine.writeEvents effect ++
          (if effect.halts && !before.jammed then [Event.jammed before.opcodeByte address] else []) ++
          [Event.executed address before.opcodeByte cost]))
      scratch })

/-- One step, which decides by its own sample of the request line. A handler begins with the notes of the
step that calls it, and the step goes on with those that the handler leaves. -/
def step (run : Runner β ν) (noting : Noting β ν) : Option (Nat × Noting β ν) :=
  let machine := noting.machine
  let (decision, scratch) := noting.scratch.poll machine.processor
  match decision with
  | some kind => some (Interrupt.cycles, { machine := machine.service kind, scratch })
  | none =>
    match machine.enterTrap? with
    | none => some (execute { machine, scratch })
    | some (handler, entered) =>
      (run handler { machine := entered, scratch }).map fun finished =>
        execute { finished with machine := finished.machine.leaveTrap }

/-- Steps while a condition holds, at most `turns` times. -/
def stepWhile (run : Runner β ν) (condition : Processor β → Bool) (turns : Nat)
    (noting : Noting β ν) : Option (Noting β ν) :=
  if condition noting.machine.processor then
    match turns with
    | 0 => none
    | turns + 1 => (noting.step run).bind fun (_, next) => stepWhile run condition turns next
  else some noting

/-- A change of the host to the processor. A reset wipes out the notes. -/
def change (noting : Noting β ν) (operation : Change β) : Noting β ν where
  machine := noting.machine.change operation
  scratch :=
    match operation with
    | .reset => .blank
    | _ => noting.scratch

/-- Runs a program whose handlers are run by the given runner and whose loops turn at most `turns`
times. -/
def runWith (run : Runner β ν) (turns : Nat) : Runner β ν
  | .done, noting => some noting
  | .look next, noting => runWith run turns (next noting.machine.processor) noting
  | .survey next, noting => runWith run turns (next noting.machine.panel) noting
  | .note entry next, noting =>
    runWith run turns next { noting with machine := noting.machine.record [.noted entry] }
  | .change operation next, noting => runWith run turns next (noting.change operation)
  | .setTracing on next, noting =>
    runWith run turns next { noting with machine := { noting.machine with tracing := on } }
  | .setSink on next, noting =>
    runWith run turns next { noting with machine := { noting.machine with sink := on } }
  | .step next, noting =>
    (noting.step run).bind fun (cost, after) => runWith run turns (next cost) after
  | .stepWhile condition next, noting =>
    (noting.stepWhile run condition turns).bind fun after => runWith run turns next after
  | .register address handler next, noting =>
    let (accepted, after) := noting.machine.registerTrap address handler
    runWith run turns (next accepted) { noting with machine := after }
  | .remove address next, noting =>
    let (present, after) := noting.machine.removeTrap address
    runWith run turns (next present) { noting with machine := after }

/-- Runs a program within a bound on the nesting of handlers and on the turns of each loop. -/
def run? : (bound : Nat) → Runner β ν
  | 0 => fun _ _ => none
  | bound + 1 => runWith (run? bound) bound

/-- A runner on machines with notes does what another one does on machines without. -/
def Forgets (run : Runner β ν) (plain : Machine.Runner β ν) : Prop :=
  ∀ program noting, (run program noting).map machine = plain program noting.machine

/-- The cycles that are noted down for an instruction are those that it takes. -/
theorem execute_eq (noting : Noting β ν) :
    noting.execute =
      (noting.machine.processor.cost,
        { machine := noting.machine.execute
          scratch := noting.scratch.carryOut noting.machine.processor.opcode
            noting.machine.processor.read noting.machine.processor.registers }) := by
  have hCost : noting.machine.processor.opcode.cycles +
      (noting.scratch.carryOut noting.machine.processor.opcode noting.machine.processor.read
        noting.machine.processor.registers).penalty = noting.machine.processor.cost :=
    congrArg (noting.machine.processor.opcode.cycles + ·) (Scratch.penalty_carryOut ..)
  simp only [execute, hCost]
  rfl

variable {run : Runner β ν} {plain : Machine.Runner β ν}

/-- A step is the same whatever is noted down before it, if handlers are. -/
theorem step_forgets (forgets : Forgets run plain) (noting : Noting β ν) :
    (noting.step run).map (Prod.map id machine) = noting.machine.step plain := by
  simp only [step, Scratch.poll_eq]
  cases hPending : noting.machine.processor.pendingInterrupt with
  | some kind => simp only [Machine.step, hPending, Option.map_some, Prod.map, id]
  | none =>
      cases hEnter : noting.machine.enterTrap? with
      | none =>
          simp only [Machine.step, hPending, hEnter, Option.map_some, Prod.map, id, execute_eq]
      | some called =>
          obtain ⟨handler, entered⟩ := called
          have hHandler := forgets handler
            { machine := entered
              scratch := { noting.scratch with requested := noting.machine.processor.irqAsserted } }
          simp only [Machine.step, hPending, hEnter, ← hHandler, Option.map_map]
          congr 1
          funext finished
          simp only [Function.comp_apply, Prod.map, id, execute_eq]

/-- A loop is the same, since each of its steps is. -/
theorem stepWhile_forgets (forgets : Forgets run plain) (condition : Processor β → Bool) (turns : Nat)
    (noting : Noting β ν) :
    (noting.stepWhile run condition turns).map machine =
      noting.machine.stepWhile plain condition turns := by
  induction turns generalizing noting with
  | zero =>
      unfold stepWhile Machine.stepWhile
      split <;> rfl
  | succ turns ih =>
      unfold stepWhile Machine.stepWhile
      split
      · dsimp only
        rw [← step_forgets forgets]
        cases noting.step run with
        | none => rfl
        | some taken => exact ih taken.2
      · rfl

/-- Programs are the same on machines with and without notes, if their handlers are. -/
theorem runWith_forgets (forgets : Forgets run plain) (turns : Nat) :
    Forgets (runWith run turns) (Machine.runWith plain turns) := by
  intro program noting
  induction program generalizing noting with
  | done => rfl
  | look next ih => exact ih _ _
  | survey next ih => exact ih _ _
  | note entry next ih => exact ih _
  | change operation next ih => exact ih _
  | setTracing on next ih => exact ih _
  | setSink on next ih => exact ih _
  | step next ih =>
      rw [runWith, Machine.runWith, ← step_forgets forgets]
      cases noting.step run with
      | none => rfl
      | some taken => exact ih _ _
  | stepWhile condition next ih =>
      rw [runWith, Machine.runWith, ← stepWhile_forgets forgets]
      cases noting.stepWhile run condition turns with
      | none => rfl
      | some after => exact ih _
  | register address handler next _ ih => exact ih _ _
  | remove address next ih => exact ih _ _

/-- Whatever is noted down, a run does what it does on the machine without notes, the steps of handlers
included. -/
theorem run?_forgets (bound : Nat) :
    Forgets (run? bound : Runner β ν) (Machine.run? bound) := by
  induction bound with
  | zero => exact fun _ _ => rfl
  | succ bound ih => exact runWith_forgets ih bound

end Noting

end Mos6510
