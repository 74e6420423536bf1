import Mos6510.Board
import Mos6510.Machine

/-!
The monitor: commands by which an operator works a machine, and the replies. A script of commands
is a program of the host; every command that has been carried out is noted, with its reply and what
the machine then shows. Traps that the operator sets run a script of their own.
-/

namespace Mos6510.Monitor

/-- What a command answers. -/
inductive Reply where
  | nothing
  | ok
  | number (value : Nat)
  | truth (value : Bool)
  | truths (values : List Bool)
  | text (value : List Char)
  | bytes (values : List UInt8)
  | cells (values : List Write)
  | refused (error : Ram.LoadError)
  deriving DecidableEq, Repr

/-- Commands that reach memory directly and not through the bus. -/
inductive MemoryCommand where
  | load (address : Address) (image : List UInt8)
  | setVector (vector target : Address)
  | read (address : Address) (length : Nat)
  | poke (address : Address) (value : UInt8)
  | nonzero (first last : Address)
  deriving DecidableEq, Repr

def MemoryCommand.run (command : MemoryCommand) (ram : Ram) : Reply × Ram :=
  match command with
  | .load address image =>
    match ram.load address image with
    | .ok loaded => (.ok, loaded)
    | .error error => (.refused error, ram)
  | .setVector vector target => (.ok, ram.setVector vector target)
  | .read address length => (.bytes (readRun ram.read address length), ram)
  | .poke address value => (.ok, ram.write address value)
  | .nonzero first last => (.cells (ram.nonzero first last), ram)

/-- Carries out commands on memory, one after another, and collects the replies. -/
def MemoryCommand.runAll : List MemoryCommand → Ram → List Reply
  | [], _ => []
  | command :: rest, ram =>
    let (reply, after) := command.run ram
    reply :: runAll rest after

/-- Loads images into memory in order, up to the first one that is refused. -/
def loadAll (ram : Ram) : List (Address × List UInt8) → Except Ram.LoadError Ram
  | [] => .ok ram
  | (address, image) :: rest => do loadAll (← ram.load address image) rest

/-- A register and the value that it is set to. -/
inductive Assignment where
  | a (value : UInt8)
  | x (value : UInt8)
  | y (value : UInt8)
  | sp (value : UInt8)
  | pc (value : Address)
  | status (value : UInt8)
  deriving DecidableEq, Repr

def Assignment.apply (registers : Registers) : Assignment → Registers
  | .a value => { registers with a := value }
  | .x value => { registers with x := value }
  | .y value => { registers with y := value }
  | .sp value => { registers with sp := value }
  | .pc value => { registers with pc := value }
  | .status value => registers.loadFlags value

/-- The commands of the monitor. -/
inductive Command where
  | step (count : Nat)
  | run (budget : UInt64)
  | stall (limit : Nat)
  | reset
  | set (assignments : List Assignment)
  | setFlag (flag : Flag) (value : Bool)
  | flags
  | write (address : Address) (value : UInt8)
  | nmi (level : Bool)
  | irq (level : Bool)
  | assertNmi
  | releaseNmi
  | assertIrq
  | clearIrq
  | busIrq (level : Bool)
  | trace (on : Bool)
  | traceLine
  | sink (on : Bool)
  | trap (address : Address) (label : Int) (script : List Command)
  | untrap (address : Address)
  | capacity
  | memory (command : MemoryCommand)

/-- What a machine shows to its operator. -/
structure Display where
  registers : Registers
  cycles : UInt64
  nmiPending : Bool
  irqPending : Bool
  jammed : Bool
  tracing : Bool
  trapCount : Nat
  deriving DecidableEq, Repr

/-- What a processor and the settings of its machine show. -/
def Display.of (processor : Processor Board) (panel : Panel) : Display where
  registers := processor.registers
  cycles := processor.cycles
  nmiPending := processor.lines.nmiPending
  irqPending := processor.irqAsserted
  jammed := processor.jammed
  tracing := panel.tracing
  trapCount := panel.trapCount

/-- The text of a display: every item behind its name, truth values as digits. -/
def Display.text (display : Display) : String :=
  let r := display.registers
  let byte (value : UInt8) := String.ofList (Hexadecimal.byte value)
  let truth (value : Bool) := toString value.toNat
  String.intercalate " " [
    "PC=" ++ String.ofList (Hexadecimal.address r.pc),
    "A=" ++ byte r.a, "X=" ++ byte r.x, "Y=" ++ byte r.y, "SP=" ++ byte r.sp,
    "P=" ++ byte r.flags.status,
    "CYC=" ++ toString display.cycles.toNat,
    "NMI=" ++ truth display.nmiPending, "IRQ=" ++ truth display.irqPending,
    "JAM=" ++ truth display.jammed, "TE=" ++ truth display.tracing,
    "T=" ++ toString display.trapCount]

inductive Note where
  /-- The script of a trap starts at an address. -/
  | trapStarted (label : Int) (address : Address)
  /-- The script of a trap has ended. -/
  | trapEnded (label : Int)
  /-- A command of the given name has been carried out. -/
  | replied (name : String) (reply : Reply) (display : Display)
  deriving DecidableEq, Repr

def MemoryCommand.name : MemoryCommand → String
  | .load _ _ => "load"
  | .setVector _ _ => "vector"
  | .read _ _ => "read"
  | .poke _ _ => "poke"
  | .nonzero _ _ => "nonzero"

def Command.name : Command → String
  | .step _ => "step"
  | .run _ => "run"
  | .stall _ => "stall"
  | .reset => "reset"
  | .set _ => "set"
  | .setFlag _ _ => "set_flag"
  | .flags => "flags"
  | .write _ _ => "write"
  | .nmi _ => "nmi"
  | .irq _ => "irq"
  | .assertNmi => "assert_nmi"
  | .releaseNmi => "release_nmi"
  | .assertIrq => "assert_irq"
  | .clearIrq => "clear_irq"
  | .busIrq _ => "bus_irq"
  | .trace _ => "trace"
  | .traceLine => "trace_line"
  | .sink _ => "sink"
  | .trap _ _ _ => "trap"
  | .untrap _ => "untrap"
  | .capacity => "capacity"
  | .memory command => command.name

/-- Programs that work a board and take the notes of the monitor. -/
abbrev Work := Program Board Note

/-- Notes a reply together with what the machine then shows. -/
def reply (name : String) (answer : Reply) (next : Work) : Work :=
  .look fun processor => .survey fun panel =>
    .note (.replied name answer (Display.of processor panel)) next

/-- Changes the processor and notes that it was done. -/
def changing (name : String) (operation : Change Board) (next : Work) : Work :=
  .change operation (reply name .nothing next)

/-- Steps a number of times and notes the cycles of every step. -/
def steps (name : String) : (count : Nat) → Work → Work
  | 0, next => next
  | count + 1, next => .step fun cost => reply name (.number cost) (steps name count next)

mutual

/-- The program that carries out a command and then goes on. -/
def Command.program (command : Command) (next : Work) : Work :=
  let name := command.name
  match command with
  | .step count => steps name count next
  | .run budget => .runFor budget fun used => reply name (.number used.toNat) next
  | .stall limit => .runUntilStalled limit fun used? =>
      reply name (match used? with | some used => .number used.toNat | none => .nothing) next
  | .reset => changing name .reset next
  | .set assignments =>
    changing name (.registers fun registers => assignments.foldl Assignment.apply registers) next
  | .setFlag flag value => changing name (.registers (Registers.setFlag flag value)) next
  | .flags => .look fun processor =>
      let flags := processor.registers.flags
      reply name (.truths [flags.negative, flags.overflow, flags.decimal, flags.interruptDisable,
        flags.zero, flags.carry]) next
  | .write address value => changing name (.write address value) next
  | .nmi level => changing name (.driveNmi level) next
  | .irq level => changing name (.driveIrq level) next
  | .assertNmi => changing name (.driveNmi true) next
  | .releaseNmi => changing name (.driveNmi false) next
  | .assertIrq => changing name (.driveIrq true) next
  | .clearIrq => changing name (.driveIrq false) next
  | .busIrq level => changing name (.bus fun board => { board with requesting := level }) next
  | .trace on => .setTracing on (reply name .nothing next)
  | .traceLine => .look fun processor => reply name (.text processor.traceLine) next
  | .sink on => .setSink on (reply name .nothing next)
  | .trap address label commands =>
    .register address
      (fun called => .note (.trapStarted label called)
        (script commands (.note (.trapEnded label) .done)))
      (fun accepted => reply name (.truth accepted) next)
  | .untrap address => .remove address fun present => reply name (.truth present) next
  | .capacity => .survey fun panel => reply name (.number panel.trapCapacity) next
  | .memory operation => .look fun processor =>
      let (answer, ram) := operation.run processor.bus.ram
      .change (.bus fun board => { board with ram }) (reply name answer next)

/-- The program that carries out commands one after another and then goes on. -/
def script : List Command → Work → Work
  | [], next => next
  | command :: rest, next => command.program (script rest next)

end

/-- A session with the monitor: a board, how its machine is set up, and what the operator does. -/
structure Session where
  board : Board
  setup : Setup
  /-- Whether a sink for trace lines is installed once the machine is on. -/
  sink : Bool
  commands : List Command

/-- The program of a session, which begins with a note of what the machine shows at first. -/
def Session.program (session : Session) : Work :=
  .setSink session.sink (reply "new" .nothing (script session.commands .done))

/-- Everything that happens in a session, within a bound on the nesting of traps and on the turns of
each loop. -/
def Session.history? (bound : Nat) (session : Session) : Option (List (Event Note)) :=
  (Machine.run? bound session.program (Machine.powerOn session.setup session.board)).map
    Machine.history

end Mos6510.Monitor
