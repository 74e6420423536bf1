import Mos6510.Machine

/-!
The bound of a run. A bound that is too small leaves a run without a result; it never gives another
one. Main statements: a result stays the same when the bound grows, and so a program has at most
one result, whatever the bounds.
-/

namespace Mos6510.Machine

variable {β ν : Type} [Bus β]

/-- One runner extends another when it agrees with every result that the other has. -/
def Extends (run larger : Runner β ν) : Prop :=
  ∀ program machine result, run program machine = some result → larger program machine = some result

/-- A step that ends under a runner ends in the same way under a larger one. -/
theorem step_eq_some_of_extends {run larger : Runner β ν} (hRun : Extends run larger)
    {machine : Machine β ν} {result : Nat × Machine β ν} (h : machine.step run = some result) :
    machine.step larger = some result := by
  unfold step at h ⊢
  split at h
  · exact h
  · split at h
    · exact h
    · next handler entered _ =>
      obtain ⟨finished, hFinished, rfl⟩ := Option.map_eq_some_iff.mp h
      rw [hRun handler entered finished hFinished, Option.map_some]

/-- A loop that ends within some turns ends in the same way within more. -/
theorem stepWhile_eq_some_of_le {run larger : Runner β ν} (hRun : Extends run larger)
    {condition : Processor β → Bool} {turns more : Nat} (hTurns : turns ≤ more)
    {machine result : Machine β ν} (h : machine.stepWhile run condition turns = some result) :
    machine.stepWhile larger condition more = some result := by
  induction turns generalizing more machine with
  | zero =>
    unfold stepWhile at h ⊢
    split at h
    · cases h
    · next hStop => rw [if_neg hStop, h]
  | succ turns ih =>
    obtain ⟨rest, rfl⟩ : ∃ rest, more = rest + 1 := ⟨more - 1, by omega⟩
    unfold stepWhile at h ⊢
    split at h
    · next hGo =>
      obtain ⟨next, hNext, hRest⟩ := Option.bind_eq_some_iff.mp h
      rw [if_pos hGo, step_eq_some_of_extends hRun hNext]
      exact ih (by omega) hRest
    · next hStop => rw [if_neg hStop, h]

/-- What is run with a larger runner and more turns keeps its result. -/
theorem runWith_extends {run larger : Runner β ν} (hRun : Extends run larger) {turns more : Nat}
    (hTurns : turns ≤ more) : Extends (runWith run turns) (runWith larger more) := by
  intro program machine result h
  induction program generalizing machine with
  | done => exact h
  | look next ih => exact ih _ _ h
  | survey next ih => exact ih _ _ h
  | note entry next ih => exact ih _ h
  | change operation next ih => exact ih _ h
  | setTracing on next ih => exact ih _ h
  | setSink on next ih => exact ih _ h
  | step next ih =>
    obtain ⟨taken, hTaken, hRest⟩ := Option.bind_eq_some_iff.mp h
    rw [runWith, step_eq_some_of_extends hRun hTaken, Option.bind_some]
    exact ih _ _ hRest
  | stepWhile condition next ih =>
    obtain ⟨after, hAfter, hRest⟩ := Option.bind_eq_some_iff.mp h
    rw [runWith, stepWhile_eq_some_of_le hRun hTurns hAfter, Option.bind_some]
    exact ih _ hRest
  | register address handler next _ ih => exact ih _ _ h
  | remove address next ih => exact ih _ _ h

/-- A larger bound keeps every result. -/
theorem run?_extends {bound larger : Nat} (hBound : bound ≤ larger) :
    Extends (run? bound : Runner β ν) (run? larger) := by
  induction bound generalizing larger with
  | zero =>
    intro program machine result h
    cases h
  | succ bound ih =>
    obtain ⟨rest, rfl⟩ : ∃ rest, larger = rest + 1 := ⟨larger - 1, by omega⟩
    exact runWith_extends (ih (by omega)) (by omega)

/-- Two bounds that both suffice give the same result. -/
theorem run?_unique {first second : Nat} {program : Program β ν} {machine left right : Machine β ν}
    (hLeft : run? first program machine = some left)
    (hRight : run? second program machine = some right) : left = right := by
  have hLeft' := run?_extends (Nat.le_max_left first second) _ _ _ hLeft
  have hRight' := run?_extends (Nat.le_max_right first second) _ _ _ hRight
  exact Option.some.inj (hLeft'.symm.trans hRight')

end Mos6510.Machine
