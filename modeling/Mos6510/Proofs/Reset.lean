import Mos6510.Proofs.Observation
import Mos6510.Proofs.StepCost

/-!
A reset erases history. Whatever a processor has been through, after a reset it cannot be told from
one that has just been switched on with the same memory, the same traps and settings and the same
levels on its lines. Main statement: after a reset of two such machines every program does the same on
both, transition by transition, and what each step notes down for itself never matters, in the steps of
handlers neither.
-/

namespace Mos6510

variable {β ν : Type}

namespace Machine

/-- Two machines are the same, and the same has happened on both since their journals held what is
given. -/
def SameSince (firstPast secondPast : List (Event ν)) (first second : Machine β ν) : Prop :=
  { first with journal := [] } = { second with journal := [] } ∧
    ∃ events, first.journal = events ++ firstPast ∧ second.journal = events ++ secondPast

/-- Two machines that differ in nothing that outlives a reset: the same memory, the same levels of the
lines, the same traps and trace settings, and no handler runs on either. -/
structure AlikeAtReset (first second : Machine β ν) : Prop where
  bus : first.processor.bus = second.processor.bus
  nmiLevel : first.processor.lines.nmiLevel = second.processor.lines.nmiLevel
  irqLevel : first.processor.lines.irqLevel = second.processor.lines.irqLevel
  traps : first.traps = second.traps
  tracing : first.tracing = second.tracing
  sink : first.sink = second.sink
  running : first.running = [] ∧ second.running = []

end Machine

/-- Two configurations go on with the same programs on machines on which the same has happened. -/
def Configuration.SameSince (firstPast secondPast : List (Event ν))
    (first second : Configuration β ν) : Prop :=
  first.program = second.program ∧ first.waiting = second.waiting ∧
    Machine.SameSince firstPast secondPast first.machine second.machine

namespace Machine

/-- Two who remember different things see the same happen on a machine. -/
theorem sameSince_seenBy (machine : Machine β ν) (firstPast secondPast : List (Event ν)) :
    SameSince firstPast secondPast (machine.seenBy (.remembering firstPast))
      (machine.seenBy (.remembering secondPast)) :=
  ⟨rfl, machine.journal.filter (Observer.remembering []).notices, rfl, rfl⟩

variable [Bus β] {first second : Machine β ν}

/-- Whoever remembers other events sees the same transitions. -/
theorem after?_seenBy_remembering (machine : Machine β ν) (script : Program β ν)
    (past : List (Event ν)) (count : Nat) :
    (Configuration.start (machine.seenBy (.remembering past)) script).after? count =
      ((Configuration.start machine script).after? count).map
        fun reached => reached.seenBy (.remembering past) := by
  rw [← Configuration.seenBy_start, Configuration.after?_seenBy]
  intro hIgnores
  cases hIgnores

/-- A result on a machine that is remembered in one way is one on the machine remembered in another. -/
theorem exists_ends_seenBy_remembering {machine result : Machine β ν} {script : Program β ν}
    (firstPast secondPast : List (Event ν))
    (h : Ends script (machine.seenBy (.remembering firstPast)) result) :
    ∃ plain : Machine β ν, result = plain.seenBy (.remembering firstPast) ∧
      Ends script (machine.seenBy (.remembering secondPast))
        (plain.seenBy (.remembering secondPast)) := by
  have hAll {past : List (Event ν)}
      (hIgnores : (Observer.remembering past).ignoresTrace = true) : machine.Quiet ∧ script.Quiet := by
    cases hIgnores
  obtain ⟨plain, hPlain, hResult⟩ := (ends_seenBy_iff hAll).mp h
  exact ⟨plain, hResult.symm, (ends_seenBy_iff hAll).mpr ⟨plain, hPlain, rfl⟩⟩

/-- Whatever program is run on them, the same happens on two machines: after any number of
transitions, and if the program ends also at its end. -/
def SameFuture (first second : Machine β ν) : Prop :=
  ∀ script : Program β ν,
    (∀ count, Option.Rel (Configuration.SameSince first.journal second.journal)
      ((Configuration.start first script).after? count)
      ((Configuration.start second script).after? count)) ∧
    (∀ left, Ends script first left →
      ∃ right, Ends script second right ∧ SameSince first.journal second.journal left right) ∧
    ∀ right, Ends script second right →
      ∃ left, Ends script first left ∧ SameSince first.journal second.journal left right

/-- Nothing that is to come depends on the journal. -/
theorem sameFuture_of_eq (h : { first with journal := [] } = { second with journal := [] }) :
    SameFuture first second := by
  obtain ⟨common, hFirst, hSecond⟩ : ∃ common : Machine β ν,
      common.seenBy (.remembering first.journal) = first ∧
        common.seenBy (.remembering second.journal) = second := by
    refine ⟨{ first with journal := [] }, first.seenBy_remembering_journal, ?_⟩
    rw [h]
    exact second.seenBy_remembering_journal
  intro script
  refine ⟨fun count => ?_, fun left hLeft => ?_, fun right hRight => ?_⟩
  · have hLeft := common.after?_seenBy_remembering script first.journal count
    have hRight := common.after?_seenBy_remembering script second.journal count
    rw [hFirst] at hLeft
    rw [hSecond] at hRight
    rw [hLeft, hRight]
    cases (Configuration.start common script).after? count with
    | none => exact .none
    | some reached => exact .some ⟨rfl, rfl, reached.machine.sameSince_seenBy _ _⟩
  · rw [← hFirst] at hLeft
    obtain ⟨plain, rfl, hRight⟩ := exists_ends_seenBy_remembering _ second.journal hLeft
    rw [hSecond] at hRight
    exact ⟨_, hRight, plain.sameSince_seenBy _ _⟩
  · rw [← hSecond] at hRight
    obtain ⟨plain, rfl, hLeft⟩ := exists_ends_seenBy_remembering _ first.journal hRight
    rw [hFirst] at hLeft
    exact ⟨_, hLeft, plain.sameSince_seenBy _ _⟩

/-- A reset of two machines that are alike makes them the same, but for what is in their journals. -/
theorem AlikeAtReset.change_reset (alike : AlikeAtReset first second) :
    { first.change .reset with journal := [] } = { second.change .reset with journal := [] } := by
  obtain ⟨⟨_, ⟨_, _, _⟩, _, _, _⟩, _, _, _, _, _⟩ := first
  obtain ⟨⟨_, ⟨_, _, _⟩, _, _, _⟩, _, _, _, _, _⟩ := second
  obtain ⟨rfl, rfl, rfl, rfl, rfl, rfl, rfl, rfl⟩ := alike
  rfl

end Machine

def Program.registerAll : List (Address × Handler β ν) → Program β ν
  | [] => .done
  | (address, handler) :: rest => .register address handler fun _ => registerAll rest

namespace Machine

variable [Bus β]

/-- Gives a new machine the traps of another one, its sink and the levels of its lines. -/
def setUp (machine : Machine β ν) : Program β ν :=
  .setSink machine.sink (.change (.driveNmi machine.processor.lines.nmiLevel)
    (.change (.driveIrq machine.processor.lines.irqLevel) (.registerAll machine.traps.handlers)))

/-- Handlers of other addresses than those of the table are all registered if there is room. -/
theorem ends_registerAll (waiting : List (Address × Handler β ν)) (machine : Machine β ν)
    (hNew : (machine.traps.addresses ++ waiting.map Prod.fst).Nodup)
    (hRoom : machine.traps.size + waiting.length ≤ machine.traps.capacity) :
    Ends (.registerAll waiting) machine { machine with traps := machine.traps.extend waiting } := by
  induction waiting generalizing machine with
  | nil =>
      rw [TrapTable.extend_nil]
      exact ⟨1, rfl⟩
  | cons called waiting ih =>
      obtain ⟨address, handler⟩ := called
      have hAbsent : address ∉ machine.traps.addresses := fun hPresent =>
        (List.nodup_append.mp hNew).2.2 address hPresent address List.mem_cons_self rfl
      have hFits : machine.traps.size < machine.traps.capacity := by
        rw [List.length_cons] at hRoom
        omega
      have hRegister (run : Runner β ν) (turns : Nat) :
          runWith run turns (.registerAll ((address, handler) :: waiting)) machine =
            runWith run turns (.registerAll waiting)
              { machine with traps := machine.traps.extend [(address, handler)] } := by
        simp only [Program.registerAll, runWith, registerTrap,
          TrapTable.register?_of_new handler hAbsent hFits]
      rw [TrapTable.extend_cons]
      refine Ends.of_eq hRegister (ih { machine with traps := _ } ?_ ?_)
      · rw [TrapTable.addresses_extend, List.append_assoc]
        exact hNew
      · rw [TrapTable.size_extend, Nat.add_assoc, Nat.add_comm [(address, handler)].length]
        exact hRoom

end Machine

namespace Execution

open Machine

variable [Bus β] {setup : Setup} {bus : β} {program : Program β ν}
  {history : List (Configuration β ν)} {last : Configuration β ν}

/-- Wherever an execution is looked at without a running handler, a new machine can be made alike. -/
theorem exists_alike (run : Execution (.powerOn setup bus program) history last)
    (hIdle : last.machine.running = []) :
    ∃ fresh, Ends last.machine.setUp
        (Machine.powerOn ⟨last.machine.traps.capacity, last.machine.tracing⟩
          last.machine.processor.bus) fresh ∧
      AlikeAtReset last.machine fresh := by
  have sound := run.tracks.sound
  have hTraps := TrapTable.extend_handlers fun _ => run.tracks.exists_of_mem_of_idle hIdle
  -- The new machine before its traps are registered.
  let bare : Machine β ν :=
    (({ Machine.powerOn ⟨last.machine.traps.capacity, last.machine.tracing⟩
        last.machine.processor.bus with sink := last.machine.sink }.change
      (.driveNmi last.machine.processor.lines.nmiLevel)).change
        (.driveIrq last.machine.processor.lines.irqLevel))
  have hBare : bare.traps = .empty last.machine.traps.capacity := rfl
  have hNew : (bare.traps.addresses ++ last.machine.traps.handlers.map Prod.fst).Nodup := by
    rw [← TrapTable.addresses_extend, hBare, hTraps]
    exact sound.distinct
  have hRoom : bare.traps.size + last.machine.traps.handlers.length ≤ bare.traps.capacity := by
    rw [← TrapTable.size_extend, hBare, hTraps]
    exact sound.bounded
  have hRegister := ends_registerAll last.machine.traps.handlers bare hNew hRoom
  rw [hBare, hTraps] at hRegister
  have hSetUp (run : Runner β ν) (turns : Nat) :
      runWith run turns last.machine.setUp
          (.powerOn ⟨last.machine.traps.capacity, last.machine.tracing⟩ last.machine.processor.bus) =
        runWith run turns (.registerAll last.machine.traps.handlers) bare := rfl
  exact ⟨_, hRegister.of_eq hSetUp, rfl, rfl, rfl, rfl, rfl, rfl, hIdle, rfl⟩

/-- A reset erases history, wherever an execution is looked at without a running handler. It writes
nothing. Whatever has happened before, after a reset every program does the same as on every other
machine that is alike and is reset too: after each transition what comes next, with the cycles that
it has been told, is the same, and so are the processor with its memory, its counter, its lines and
its halt, the traps and the events. A new machine is alike once it has been set up. Besides, no step
depends on what earlier steps have noted down for themselves: neither which interrupt it services nor
how many cycles it takes, and so no run does, however the steps of handlers are nested in it. -/
theorem reset_erases_history (run : Execution (.powerOn setup bus program) history last)
    (hIdle : last.machine.running = []) :
    (last.machine.change .reset).processor.bus = last.machine.processor.bus ∧
    (last.machine.change .reset).journal =
      .reset (readWord last.machine.processor.read resetVector) :: last.machine.journal ∧
    (∀ other, AlikeAtReset last.machine other →
      SameFuture (last.machine.change .reset) (other.change .reset)) ∧
    (∃ fresh, Ends last.machine.setUp
        (Machine.powerOn ⟨last.machine.traps.capacity, last.machine.tracing⟩
          last.machine.processor.bus) fresh ∧
      AlikeAtReset last.machine fresh) ∧
    (∀ (processor : Processor β) (scratch : Scratch),
      (scratch.poll processor).1 = processor.pendingInterrupt ∧
      processor.opcode.cycles +
        (scratch.carryOut processor.opcode processor.read processor.registers).penalty =
          processor.cost) ∧
    ∀ (bound : Nat) (script : Program β ν) (noting : Noting β ν),
      (Noting.run? bound script noting).map Noting.machine = run? bound script noting.machine := by
  refine ⟨rfl, rfl, fun other alike => sameFuture_of_eq alike.change_reset, run.exists_alike hIdle,
    fun processor scratch => ⟨scratch.poll_fst processor, ?_⟩, Noting.run?_forgets⟩
  rw [Scratch.penalty_carryOut]
  rfl

/-- A memory whose first instruction stops the instruction stream. -/
def haltingRam : Ram := (Ram.zero.setVector resetVector 0x8000).write 0x8000 0x02

/-- Sets a trap, loads a register, halts, and asserts the line of the non-maskable interrupt. -/
def eventfulPast : Program Ram Empty :=
  .register 0x9000 idleHandler fun _ =>
    .change (.registers fun registers => { registers with a := 1 })
      (.step fun _ => .change (.driveNmi true) .done)

/-- A halted machine with a pending interrupt and a new one have the same future after a reset. -/
theorem reset_erases_history_of_halt :
    ∃ history last fresh,
      Execution (.powerOn {} haltingRam eventfulPast) history last ∧
      last.machine.running = [] ∧ last.machine.processor.jammed = true ∧
      last.machine.processor.lines.nmiPending = true ∧ last.machine.processor.cycles = 2 ∧
      Ends last.machine.setUp
        (Machine.powerOn ⟨last.machine.traps.capacity, last.machine.tracing⟩
          last.machine.processor.bus) fresh ∧
      SameFuture (last.machine.change .reset) (fresh.change .reset) := by
  have run : Execution (.powerOn {} haltingRam eventfulPast) _ _ :=
    .next (.next (.next (.next .refl rfl) rfl) rfl) rfl
  obtain ⟨_, _, hSame, ⟨fresh, hFresh, alike⟩, _⟩ := run.reset_erases_history rfl
  exact ⟨_, _, fresh, run, rfl, rfl, rfl, rfl, hFresh, hSame fresh alike⟩

end Execution

end Mos6510
