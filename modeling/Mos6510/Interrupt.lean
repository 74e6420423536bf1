import Mos6510.Address

/-!
Interrupts. The non-maskable interrupt is edge-triggered: asserting its line makes one interrupt
pending, and holding the line makes no more. The interrupt request is level-sensitive: it counts
for as long as its line is held.
-/

namespace Mos6510

/-- The kinds of hardware interrupt: non-maskable, and maskable request. -/
inductive Interrupt where
  | nmi
  | irq
  deriving DecidableEq, Repr

/-- Where the start address after a reset is stored. -/
def resetVector : Address := 0xFFFC

/-- Where the address of the handler of an interrupt is stored. Software interrupts share the vector
of the interrupt request. -/
def Interrupt.vector : Interrupt → Address
  | .nmi => 0xFFFA
  | .irq => 0xFFFE

def Interrupt.name : Interrupt → String
  | .nmi => "Nmi"
  | .irq => "Irq"

/-- The cycles that it takes to enter an interrupt handler. -/
def Interrupt.cycles : Nat := 7

/-- The state of the interrupt inputs. -/
structure Lines where
  /-- An edge of the non-maskable line has not been serviced yet. -/
  nmiPending : Bool
  nmiLevel : Bool
  /-- The level of the request line as far as the host drives it. -/
  irqLevel : Bool
  deriving DecidableEq, Repr

namespace Lines

/-- All lines released and nothing pending. -/
def released : Lines := ⟨false, false, false⟩

/-- Drives the non-maskable line. Only the change from released to asserted makes an interrupt
pending. -/
def driveNmi (lines : Lines) (level : Bool) : Lines :=
  { lines with nmiPending := lines.nmiPending || level && !lines.nmiLevel, nmiLevel := level }

def driveIrq (lines : Lines) (level : Bool) : Lines := { lines with irqLevel := level }

/-- Forgets a pending interrupt. The lines keep their levels. -/
def clearNmi (lines : Lines) : Lines := { lines with nmiPending := false }

end Lines

end Mos6510
