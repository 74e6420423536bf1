import Mos6510.Proofs.Execution

/-!
Two machines in lockstep. A program that leaves the trap table alone sees of a machine no more than its
processor and its trace switch. Main statement: if two machines look alike to such a program and steps
keep them so, then the program ends on both or on neither, and leaves them alike.
-/

namespace Mos6510

/-- A program that neither registers nor removes traps, and to which it does not matter how many there
are. -/
def Program.IgnoresTraps {β ν : Type} : Program β ν → Prop
  | .done => True
  | .look next => ∀ processor, (next processor).IgnoresTraps
  | .survey next =>
    (∀ panel trapCount trapCapacity, next { panel with trapCount, trapCapacity } = next panel) ∧
      ∀ panel, (next panel).IgnoresTraps
  | .note _ next => next.IgnoresTraps
  | .change _ next => next.IgnoresTraps
  | .setTracing _ next => next.IgnoresTraps
  | .setSink _ next => next.IgnoresTraps
  | .step next => ∀ cost, (next cost).IgnoresTraps
  | .stepWhile _ next => next.IgnoresTraps
  | .register _ _ _ => False
  | .remove _ _ => False

namespace Machine

variable {β ν : Type} [Bus β]

section

variable {machine result : Machine β ν}

/-- Whatever the bound that a step is given, if it has a result then it is this one. -/
theorem step_unique {first second : Nat} {left right : Nat × Machine β ν}
    (hLeft : machine.step (run? first) = some left)
    (hRight : machine.step (run? second) = some right) : left = right := by
  have hLeft' := step_eq_some_of_extends (run?_extends (Nat.le_max_left first second)) hLeft
  have hRight' := step_eq_some_of_extends (run?_extends (Nat.le_max_right first second)) hRight
  exact Option.some.inj (hLeft'.symm.trans hRight')

/-- An operation other than a step has the results of what comes next. -/
theorem ends_iff_of_eq {program next : Program β ν} {after : Machine β ν}
    (hEq : ∀ run turns, runWith run turns program machine = runWith run turns next after) :
    Ends program machine result ↔ Ends next after result := by
  refine ⟨fun hEnds => ?_, Ends.of_eq hEq⟩
  exact hEnds.of_eq fun run turns => (hEq run turns).symm

theorem ends_look_iff {next : Processor β → Program β ν} :
    Ends (.look next) machine result ↔ Ends (next machine.processor) machine result :=
  ends_iff_of_eq fun _ _ => rfl

theorem ends_survey_iff {next : Panel → Program β ν} :
    Ends (.survey next) machine result ↔ Ends (next machine.panel) machine result :=
  ends_iff_of_eq fun _ _ => rfl

theorem ends_note_iff {entry : ν} {next : Program β ν} :
    Ends (.note entry next) machine result ↔ Ends next (machine.record [.noted entry]) result :=
  ends_iff_of_eq fun _ _ => rfl

theorem ends_change_iff {operation : Change β} {next : Program β ν} :
    Ends (.change operation next) machine result ↔ Ends next (machine.change operation) result :=
  ends_iff_of_eq fun _ _ => rfl

theorem ends_setTracing_iff {on : Bool} {next : Program β ν} :
    Ends (.setTracing on next) machine result ↔ Ends next { machine with tracing := on } result :=
  ends_iff_of_eq fun _ _ => rfl

theorem ends_setSink_iff {on : Bool} {next : Program β ν} :
    Ends (.setSink on next) machine result ↔ Ends next { machine with sink := on } result :=
  ends_iff_of_eq fun _ _ => rfl

/-- A program that steps ends if the step does, within some bound, and the continuation after it. -/
theorem ends_step_iff {next : Nat → Program β ν} :
    Ends (.step next) machine result ↔
      ∃ bound cost after, machine.step (run? bound) = some (cost, after) ∧
        Ends (next cost) after result := by
  constructor
  · rintro ⟨bound, hRun⟩
    cases bound with
    | zero => cases hRun
    | succ bound =>
        obtain ⟨⟨cost, after⟩, hStep, hRest⟩ := Option.bind_eq_some_iff.mp hRun
        exact ⟨bound, cost, after, hStep, bound + 1, hRest⟩
  · rintro ⟨bound, cost, after, hStep, hRest⟩
    exact hRest.step hStep

/-- A loop leads from one machine to another: it steps as long as its condition holds. -/
inductive Loops (condition : Processor β → Bool) : Machine β ν → Machine β ν → Prop where
  | stop {machine : Machine β ν} (hStop : condition machine.processor = false) :
      Loops condition machine machine
  | turn {machine next last : Machine β ν} {bound cost : Nat}
      (hGo : condition machine.processor = true)
      (hStep : machine.step (run? bound) = some (cost, next)) (rest : Loops condition next last) :
      Loops condition machine last

/-- A run of a loop that has a result leads to it turn by turn. -/
theorem loops_of_stepWhile {condition : Processor β → Bool} {bound turns : Nat} {after : Machine β ν}
    (h : machine.stepWhile (run? bound) condition turns = some after) :
    Loops condition machine after := by
  induction turns generalizing machine with
  | zero =>
      unfold Machine.stepWhile at h
      split at h
      · cases h
      · next hStop =>
        cases h
        exact .stop (eq_false_of_ne_true hStop)
  | succ turns ih =>
      unfold Machine.stepWhile at h
      split at h
      · next hGo =>
        obtain ⟨⟨cost, stepped⟩, hStep, hRest⟩ := Option.bind_eq_some_iff.mp h
        exact .turn hGo hStep (ih hRest)
      · next hStop =>
        cases h
        exact .stop (eq_false_of_ne_true hStop)

/-- A program that loops ends if the loop comes to a stop and the continuation ends from there.
There need not be one bound for all turns. -/
theorem ends_stepWhile_iff {condition : Processor β → Bool} {next : Program β ν} :
    Ends (.stepWhile condition next) machine result ↔
      ∃ after, Loops condition machine after ∧ Ends next after result := by
  constructor
  · rintro ⟨bound, hRun⟩
    cases bound with
    | zero => cases hRun
    | succ bound =>
        obtain ⟨after, hLoop, hRest⟩ := Option.bind_eq_some_iff.mp hRun
        exact ⟨after, loops_of_stepWhile hLoop, bound + 1, hRest⟩
  · rintro ⟨after, loops, hRest⟩
    induction loops with
    | @stop machine hStop =>
        have hLoop (run : Runner β ν) (turns : Nat) :
            machine.stepWhile run condition turns = some machine := by
          cases turns <;> rw [Machine.stepWhile, if_neg (Bool.not_eq_true _ ▸ hStop)]
        refine hRest.of_eq fun run turns => ?_
        rw [runWith, hLoop, Option.bind_some]
    | turn hGo hStep rest ih => exact .stepWhile hGo ((ih hRest).step hStep)

end

/-- Machines that are related look alike, but for their traps, and what is done to both keeps them
related. Both have a step, and it takes the same time. -/
structure Lockstep (R : Machine β ν → Machine β ν → Prop) : Prop where
  processor {first second : Machine β ν} : R first second → first.processor = second.processor
  tracing {first second : Machine β ν} : R first second → first.tracing = second.tracing
  note {first second : Machine β ν} (entry : ν) :
    R first second → R (first.record [.noted entry]) (second.record [.noted entry])
  change {first second : Machine β ν} (operation : Change β) :
    R first second → R (first.change operation) (second.change operation)
  setTracing {first second : Machine β ν} (on : Bool) :
    R first second → R { first with tracing := on } { second with tracing := on }
  setSink {first second : Machine β ν} (on : Bool) :
    R first second → R { first with sink := on } { second with sink := on }
  step {first second : Machine β ν} : R first second →
    ∃ bound cost after other, first.step (run? bound) = some (cost, after) ∧
      second.step (run? bound) = some (cost, other) ∧ R after other

namespace Lockstep

variable {R : Machine β ν → Machine β ν → Prop}

/-- Neither of two machines in lockstep leads. -/
theorem symm (lockstep : Lockstep R) : Lockstep fun second first => R first second where
  processor hR := (lockstep.processor hR).symm
  tracing hR := (lockstep.tracing hR).symm
  note := lockstep.note
  change := lockstep.change
  setTracing := lockstep.setTracing
  setSink := lockstep.setSink
  step hR :=
    have ⟨bound, cost, after, other, hFirst, hSecond, hAfter⟩ := lockstep.step hR
    ⟨bound, cost, other, after, hSecond, hFirst, hAfter⟩

variable {first second : Machine β ν}

/-- A step that is known of one machine is one of the other, too. -/
theorem exists_step (lockstep : Lockstep R) (hR : R first second) {bound cost : Nat}
    {after : Machine β ν} (hStep : first.step (run? bound) = some (cost, after)) :
    ∃ larger other, second.step (run? larger) = some (cost, other) ∧ R after other := by
  obtain ⟨larger, _, _, other, hFirst, hSecond, hAfter⟩ := lockstep.step hR
  cases step_unique hStep hFirst
  exact ⟨larger, other, hSecond, hAfter⟩

/-- The loops of two machines in lockstep turn equally often. -/
theorem exists_loops (lockstep : Lockstep R) {condition : Processor β → Bool} {after : Machine β ν}
    (loops : Loops condition first after) (hR : R first second) :
    ∃ other, Loops condition second other ∧ R after other := by
  -- The condition reads the processor, on which the machines agree, so both loops turn alike.
  induction loops generalizing second with
  | stop hStop => exact ⟨second, .stop (lockstep.processor hR ▸ hStop), hR⟩
  | turn hGo hStep rest ih =>
      obtain ⟨_, stepped, hOther, hNext⟩ := lockstep.exists_step hR hStep
      obtain ⟨other, hLoop, hAfter⟩ := ih hNext
      exact ⟨other, .turn (lockstep.processor hR ▸ hGo) hOther hLoop, hAfter⟩

/-- What ends on one machine ends on the other, and leaves them related. -/
theorem exists_ends (lockstep : Lockstep R) {program : Program β ν} {result : Machine β ν}
    (ignores : program.IgnoresTraps) (hR : R first second) (hEnds : Ends program first result) :
    ∃ other, Ends program second other ∧ R result other := by
  induction program generalizing first second with
  | done =>
      obtain ⟨bound, hRun⟩ := hEnds
      cases bound with
      | zero => cases hRun
      | succ bound =>
          cases hRun
          exact ⟨second, ⟨1, rfl⟩, hR⟩
  | look next ih =>
      rw [ends_look_iff] at hEnds
      obtain ⟨other, hOther, hAfter⟩ := ih _ (ignores _) hR hEnds
      rw [lockstep.processor hR] at hOther
      exact ⟨other, ends_look_iff.mpr hOther, hAfter⟩
  | survey next ih =>
      -- The panels may differ in how many traps there are, which the program does not act on.
      have hPanel : first.panel =
          { second.panel with
            trapCount := first.panel.trapCount, trapCapacity := first.panel.trapCapacity } := by
        unfold panel
        rw [lockstep.tracing hR]
      rw [ends_survey_iff] at hEnds
      obtain ⟨other, hOther, hAfter⟩ := ih _ (ignores.2 _) hR hEnds
      rw [hPanel, ignores.1] at hOther
      exact ⟨other, ends_survey_iff.mpr hOther, hAfter⟩
  | note entry next ih =>
      rw [ends_note_iff] at hEnds
      obtain ⟨other, hOther, hAfter⟩ := ih ignores (lockstep.note entry hR) hEnds
      exact ⟨other, ends_note_iff.mpr hOther, hAfter⟩
  | change operation next ih =>
      rw [ends_change_iff] at hEnds
      obtain ⟨other, hOther, hAfter⟩ := ih ignores (lockstep.change operation hR) hEnds
      exact ⟨other, ends_change_iff.mpr hOther, hAfter⟩
  | setTracing on next ih =>
      rw [ends_setTracing_iff] at hEnds
      obtain ⟨other, hOther, hAfter⟩ := ih ignores (lockstep.setTracing on hR) hEnds
      exact ⟨other, ends_setTracing_iff.mpr hOther, hAfter⟩
  | setSink on next ih =>
      rw [ends_setSink_iff] at hEnds
      obtain ⟨other, hOther, hAfter⟩ := ih ignores (lockstep.setSink on hR) hEnds
      exact ⟨other, ends_setSink_iff.mpr hOther, hAfter⟩
  | step next ih =>
      obtain ⟨_, cost, after, hStep, hRest⟩ := ends_step_iff.mp hEnds
      obtain ⟨_, stepped, hOtherStep, hStepped⟩ := lockstep.exists_step hR hStep
      obtain ⟨other, hOther, hAfter⟩ := ih cost (ignores cost) hStepped hRest
      exact ⟨other, hOther.step hOtherStep, hAfter⟩
  | stepWhile condition next ih =>
      obtain ⟨after, loops, hRest⟩ := ends_stepWhile_iff.mp hEnds
      obtain ⟨looped, hOtherLoop, hLooped⟩ := lockstep.exists_loops loops hR
      obtain ⟨other, hOther, hAfter⟩ := ih ignores hLooped hRest
      exact ⟨other, ends_stepWhile_iff.mpr ⟨looped, hOtherLoop, hOther⟩, hAfter⟩
  | register address handler next => exact ignores.elim
  | remove address next => exact ignores.elim

end Lockstep

end Machine

end Mos6510
