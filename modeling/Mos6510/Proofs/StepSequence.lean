import Mathlib.Algebra.GroupWithZero.Nat
import Mathlib.Logic.Function.Iterate
import Mos6510.Proofs.StepCost

/-!
Steps one after another. Where no handler waits at any address, a machine takes as many steps as
anybody asks for, and each is a step of the processor. Main statements: the cycles of such a sequence
add up, they grow with every step by two at least and eight at most, and the counter advances by them.
-/

namespace Mos6510

namespace Processor

variable {β : Type} [Bus β]

/-- Whether it services an interrupt or carries out an instruction, a step takes between two and
eight cycles. -/
theorem stepCost_bounds (processor : Processor β) :
    2 ≤ processor.stepCost ∧ processor.stepCost ≤ 8 := by
  unfold stepCost
  cases processor.pendingInterrupt with
  | some kind => exact (by decide : 2 ≤ Interrupt.cycles ∧ Interrupt.cycles ≤ 8)
  | none => exact processor.cost_bounds

theorem cycles_step (processor : Processor β) :
    processor.step.cycles = processor.cycles + UInt64.ofNat processor.stepCost := by
  unfold step stepCost
  cases processor.pendingInterrupt with
  | some kind => rfl
  | none => rfl

/-- The cycles that a number of steps take together. -/
def stepsCost (processor : Processor β) : Nat → Nat
  | 0 => 0
  | count + 1 => processor.stepCost + processor.step.stepsCost count

/-- The cycles of a sequence are those of its beginning and those of the steps that follow from
there. -/
theorem stepsCost_add (processor : Processor β) (first second : Nat) :
    processor.stepsCost (first + second) =
      processor.stepsCost first + (step^[first] processor).stepsCost second := by
  induction first generalizing processor with
  | zero => rw [Nat.zero_add, stepsCost, Nat.zero_add, Function.iterate_zero_apply]
  | succ first ih =>
      rw [Nat.succ_add, stepsCost, stepsCost, ih, Function.iterate_succ_apply, Nat.add_assoc]

/-- A further step adds its own cycles, which depend on where the steps before it have led. -/
theorem stepsCost_succ (processor : Processor β) (count : Nat) :
    processor.stepsCost (count + 1) =
      processor.stepsCost count + (step^[count] processor).stepCost :=
  processor.stepsCost_add count 1

/-- So many steps take at least twice as many cycles. -/
theorem two_mul_le_stepsCost (processor : Processor β) (count : Nat) :
    2 * count ≤ processor.stepsCost count := by
  induction count with
  | zero => exact Nat.le_refl 0
  | succ count ih =>
      have hLast := (step^[count] processor).stepCost_bounds
      rw [stepsCost_succ]
      omega

/-- Every further step takes time. -/
theorem stepsCost_lt_stepsCost (processor : Processor β) {fewer more : Nat} (h : fewer < more) :
    processor.stepsCost fewer < processor.stepsCost more := by
  obtain ⟨rest, rfl⟩ : ∃ rest, more = fewer + (rest + 1) := ⟨more - fewer - 1, by omega⟩
  have hRest := (step^[fewer] processor).two_mul_le_stepsCost (rest + 1)
  rw [stepsCost_add]
  omega

/-- After so many steps the counter is ahead by their cycles, up to wrapping around. -/
theorem cycles_iterate_step (processor : Processor β) (count : Nat) :
    (step^[count] processor).cycles =
      processor.cycles + UInt64.ofNat (processor.stepsCost count) := by
  induction count with
  | zero => exact (UInt64.add_zero _).symm
  | succ count ih =>
      rw [Function.iterate_succ_apply', cycles_step, ih, stepsCost_succ, UInt64.ofNat_add,
        UInt64.add_assoc]

/-- Within its range the counter tells the cycles exactly. -/
theorem toNat_cycles_iterate_step (processor : Processor β) {count : Nat}
    (h : processor.cycles.toNat + processor.stepsCost count < 2 ^ 64) :
    (step^[count] processor).cycles.toNat =
      processor.cycles.toNat + processor.stepsCost count := by
  rw [cycles_iterate_step, UInt64.toNat_add, UInt64.toNat_ofNat',
    Nat.mod_eq_of_lt (by omega : processor.stepsCost count < 2 ^ 64), Nat.mod_eq_of_lt h]

end Processor

namespace Machine

variable {β ν : Type} {machine : Machine β ν}

/-- No handler waits at any address. -/
def Trapless (machine : Machine β ν) : Prop :=
  ∀ address, machine.traps.handler? address = none

theorem trapless_of_isEmpty (h : machine.traps.isEmpty = true) : machine.Trapless := by
  intro address
  rw [TrapTable.isEmpty, List.isEmpty_iff] at h
  rw [TrapTable.handler?, TrapTable.slot?, h]
  rfl

variable [Bus β]

theorem Trapless.untrapped (trapless : machine.Trapless) : machine.Untrapped :=
  fun _ => trapless _

/-- A step that calls no handler registers none. -/
theorem Trapless.advance (trapless : machine.Trapless) : machine.advance.Trapless := by
  intro address
  rw [machine.surroundings_advance.1]
  exact trapless address

theorem Trapless.iterate (trapless : machine.Trapless) (count : Nat) :
    (Machine.advance^[count] machine).Trapless := by
  induction count with
  | zero => exact trapless
  | succ count ih =>
      rw [Function.iterate_succ_apply']
      exact ih.advance

/-- A machine without handlers takes the steps of its processor, however many. -/
theorem processor_iterate_advance (machine : Machine β ν) (count : Nat) :
    (Machine.advance^[count] machine).processor = Processor.step^[count] machine.processor := by
  induction count with
  | zero => rfl
  | succ count ih =>
      rw [Function.iterate_succ_apply', Function.iterate_succ_apply', processor_advance, ih]

/-- A number of steps, with the cycles that they take together. -/
def stepTimes (run : Runner β ν) : Nat → Machine β ν → Option (Nat × Machine β ν)
  | 0, machine => some (0, machine)
  | count + 1, machine => (machine.step run).bind fun (cost, next) =>
      (stepTimes run count next).map fun (total, last) => (cost + total, last)

/-- A machine without handlers never fails to take its steps, whatever runner it is given. -/
theorem stepTimes_of_trapless (trapless : machine.Trapless) (run : Runner β ν) (count : Nat) :
    machine.stepTimes run count =
      some (machine.processor.stepsCost count, Machine.advance^[count] machine) := by
  induction count generalizing machine with
  | zero => rfl
  | succ count ih =>
      rw [stepTimes, step_of_untrapped trapless.untrapped, Option.bind_some]
      simp only [ih trapless.advance, Option.map_some, processor_advance, Processor.stepsCost,
        Function.iterate_succ_apply]

end Machine

end Mos6510
