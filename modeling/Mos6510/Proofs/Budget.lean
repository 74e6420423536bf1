import Mathlib.Data.Nat.Find
import Mos6510.Proofs.Accounting
import Mos6510.Proofs.StepSequence

/-!
Running for a budget of cycles. Every step takes between two and eight cycles, so a machine where no
handler waits covers any budget after finitely many steps and overshoots it by less than a step. Main
statement: the loop takes the fewest steps that cover the budget and no other, reports what they took,
and may be sliced: two runs in a row are one run for what the first has used and the budget of the
second.
-/

namespace Mos6510

namespace Processor

variable {β : Type} [Bus β] {processor : Processor β} {budget count : Nat}

/-- So many steps take at least the cycles of a budget, and no fewer steps do. -/
def Covers (processor : Processor β) (budget count : Nat) : Prop :=
  budget ≤ processor.stepsCost count ∧ ∀ fewer < count, processor.stepsCost fewer < budget

/-- Every budget is covered by some number of steps, since each step takes at least two cycles. -/
theorem exists_covers (processor : Processor β) (budget : Nat) :
    ∃ count, processor.Covers budget count := by
  have hSome : ∃ count, budget ≤ processor.stepsCost count := by
    have hTwice := processor.two_mul_le_stepsCost budget
    exact ⟨budget, by omega⟩
  exact ⟨Nat.find hSome, Nat.find_spec hSome,
    fun _ hFewer => Nat.lt_of_not_le (Nat.find_min hSome hFewer)⟩

/-- No more is used beyond a budget than the last step may take beyond its first cycle. -/
theorem Covers.bounds (covers : processor.Covers budget count) :
    processor.stepsCost count ≤ budget + 7 ∧ 2 * count ≤ budget + 1 := by
  obtain ⟨_, hFewer⟩ := covers
  cases count with
  | zero => exact ⟨Nat.zero_le _, Nat.zero_le _⟩
  | succ count =>
      have hBefore := hFewer count (Nat.lt_succ_self count)
      have hTwice := processor.two_mul_le_stepsCost count
      have hLast := (step^[count] processor).stepCost_bounds
      rw [stepsCost_succ]
      omega

theorem Covers.eq_zero (covers : processor.Covers 0 count) : count = 0 := by
  have hTwice := covers.bounds.2
  omega

/-- What some steps have used, and a budget that is covered from there, is covered by all of them. -/
theorem Covers.append {first second later : Nat}
    (covers : (step^[first] processor).Covers later second) :
    processor.Covers (processor.stepsCost first + later) (first + second) := by
  obtain ⟨hEnough, hFewer⟩ := covers
  refine ⟨?_, fun fewer hLess => ?_⟩
  · rw [stepsCost_add]
    omega
  · by_cases hFirst : fewer < first
    · have hStrict := processor.stepsCost_lt_stepsCost hFirst
      omega
    · obtain ⟨rest, rfl⟩ : ∃ rest, fewer = first + rest := ⟨fewer - first, by omega⟩
      have hRest := hFewer rest (by omega)
      rw [stepsCost_add]
      omega

/-- While the counter stays in its range, it is below its goal exactly until the budget is covered. -/
theorem Covers.cycles_lt_iff {budget : UInt64} (covers : processor.Covers budget.toNat count)
    (hCounter : processor.cycles.toNat + budget.toNat + 7 < 2 ^ 64) {steps : Nat}
    (hSteps : steps ≤ count) :
    (step^[steps] processor).cycles < processor.cycles + budget ↔ steps < count := by
  have hMost : processor.stepsCost steps ≤ budget.toNat + 7 := by
    rcases Nat.lt_or_eq_of_le hSteps with hLess | rfl
    · have hBefore := covers.2 steps hLess
      omega
    · exact covers.bounds.1
  rw [UInt64.lt_iff_toNat_lt, toNat_cycles_iterate_step processor (by omega), UInt64.toNat_add,
    Nat.mod_eq_of_lt (by omega)]
  constructor
  · intro hBelow
    refine Nat.lt_of_le_of_ne hSteps ?_
    rintro rfl
    have hEnough := covers.1
    omega
  · intro hLess
    have hBefore := covers.2 steps hLess
    omega

end Processor

namespace Machine

variable {β ν : Type} [Bus β] {machine : Machine β ν}

/-- Where no handler waits, a loop takes the steps before the first state in which its condition fails,
and ends if it may turn that often. -/
theorem stepWhile_of_trapless (trapless : machine.Trapless) (run : Runner β ν)
    (condition : Processor β → Bool) {count : Nat}
    (hGo : ∀ fewer < count, condition (Processor.step^[fewer] machine.processor) = true)
    (hStop : condition (Processor.step^[count] machine.processor) = false) (turns : Nat) :
    machine.stepWhile run condition turns =
      if count ≤ turns then some (Machine.advance^[count] machine) else none := by
  induction turns generalizing machine count with
  | zero =>
      unfold stepWhile
      cases count with
      | zero => simp_all
      | succ count => simp [show condition machine.processor = true from hGo 0 count.succ_pos]
  | succ turns ih =>
      unfold stepWhile
      cases count with
      | zero => simp_all
      | succ count =>
          have hFirst : condition machine.processor = true := hGo 0 count.succ_pos
          have hGoOn : ∀ fewer < count,
              condition (Processor.step^[fewer] machine.advance.processor) = true := by
            intro fewer hFewer
            rw [processor_advance]
            exact hGo (fewer + 1) (Nat.succ_lt_succ hFewer)
          have hStopThere : condition (Processor.step^[count] machine.advance.processor) = false := by
            rw [processor_advance]
            exact hStop
          rw [if_pos hFirst, step_of_untrapped trapless.untrapped]
          simp only [Option.bind_some, ih trapless.advance hGoOn hStopThere,
            Function.iterate_succ_apply, Nat.succ_le_succ_iff]

/-- The loop for a budget takes the steps that cover it, and goes on with what they took. -/
theorem run?_runFor_of_covers (trapless : machine.Trapless) {budget : UInt64} {count : Nat}
    (hCounter : machine.processor.cycles.toNat + budget.toNat + 7 < 2 ^ 64)
    (covers : machine.processor.Covers budget.toNat count) (bound : Nat)
    (next : UInt64 → Program β ν) :
    run? bound (.runFor budget next) machine =
      if count < bound then
        run? bound (next (UInt64.ofNat (machine.processor.stepsCost count)))
          (Machine.advance^[count] machine)
      else none := by
  cases bound with
  | zero => rfl
  | succ bound =>
      -- the counter is below its goal before each of the steps, and no longer after the last of them
      have hLoop := stepWhile_of_trapless trapless (run? bound)
        (fun processor => decide (processor.cycles < machine.processor.cycles + budget))
        (fun fewer hFewer => decide_eq_true
          ((covers.cycles_lt_iff hCounter (Nat.le_of_lt hFewer)).mpr hFewer))
        (decide_eq_false fun hBelow =>
          Nat.lt_irrefl count ((covers.cycles_lt_iff hCounter (Nat.le_refl count)).mp hBelow)) bound
      have hUsed : (Machine.advance^[count] machine).processor.cycles - machine.processor.cycles =
          UInt64.ofNat (machine.processor.stepsCost count) := by
        rw [processor_iterate_advance, Processor.cycles_iterate_step, UInt64.add_comm,
          UInt64.add_sub_cancel]
      simp only [run?, Program.runFor, runWith, hLoop, Nat.lt_succ_iff]
      split
      · rw [Option.bind_some, hUsed]
      · rfl

/-- What comes after the loop for a budget decides whether there is a result. -/
theorem ends_runFor_iff_of_covers (trapless : machine.Trapless) {budget : UInt64} {count : Nat}
    (hCounter : machine.processor.cycles.toNat + budget.toNat + 7 < 2 ^ 64)
    (covers : machine.processor.Covers budget.toNat count) {next : UInt64 → Program β ν}
    {result : Machine β ν} :
    Ends (.runFor budget next) machine result ↔
      Ends (next (UInt64.ofNat (machine.processor.stepsCost count)))
        (Machine.advance^[count] machine) result := by
  have hRun := run?_runFor_of_covers trapless hCounter covers
  constructor
  · rintro ⟨bound, hResult⟩
    rw [hRun] at hResult
    split at hResult
    · exact ⟨bound, hResult⟩
    · cases hResult
  · rintro ⟨bound, hResult⟩
    refine ⟨max bound (count + 1), ?_⟩
    rw [hRun, if_pos (by omega)]
    exact run?_extends (Nat.le_max_left bound (count + 1)) _ _ _ hResult

/-- Two runs in a row are one run, for what the first has used and the budget of the second. -/
theorem ends_runFor_runFor_iff (trapless : machine.Trapless) {budget later : UInt64} {count : Nat}
    (hFirst : machine.processor.cycles.toNat + budget.toNat + 7 < 2 ^ 64)
    (covers : machine.processor.Covers budget.toNat count)
    (hBoth : machine.processor.cycles.toNat + machine.processor.stepsCost count + later.toNat + 7 <
      2 ^ 64) {next : UInt64 → Program β ν} {result : Machine β ν} :
    Ends (.runFor budget fun first => .runFor later fun second => next (first + second)) machine
        result ↔
      Ends (.runFor (UInt64.ofNat (machine.processor.stepsCost count) + later) next) machine
        result := by
  have hUsed : (UInt64.ofNat (machine.processor.stepsCost count)).toNat =
      machine.processor.stepsCost count :=
    UInt64.toNat_ofNat_of_lt' (by omega : machine.processor.stepsCost count < 2 ^ 64)
  have hSum : (UInt64.ofNat (machine.processor.stepsCost count) + later).toNat =
      machine.processor.stepsCost count + later.toNat := by
    rw [UInt64.toNat_add, hUsed, Nat.mod_eq_of_lt (by omega)]
  obtain ⟨more, hMore⟩ :=
    (Machine.advance^[count] machine).processor.exists_covers later.toNat
  have hTotal : machine.processor.Covers
      (UInt64.ofNat (machine.processor.stepsCost count) + later).toNat (count + more) := by
    rw [hSum]
    rw [processor_iterate_advance] at hMore
    exact hMore.append
  have hCounter : (Machine.advance^[count] machine).processor.cycles.toNat + later.toNat + 7 <
      2 ^ 64 := by
    rw [processor_iterate_advance, Processor.toNat_cycles_iterate_step _ (by omega)]
    omega
  rw [ends_runFor_iff_of_covers trapless hFirst covers,
    ends_runFor_iff_of_covers (trapless.iterate count) hCounter hMore,
    ends_runFor_iff_of_covers trapless (by omega) hTotal, ← Function.iterate_add_apply,
    Nat.add_comm more count, Processor.stepsCost_add, UInt64.ofNat_add, processor_iterate_advance]

/-- Where no handler waits, and as long as the counter stays in its range, the loop for a budget ends
after the fewest steps that take at least its cycles, at most half as many as the budget, rounded up.
What it leaves is what these steps leave and nothing else, and it reports their cycles: the budget or up
to seven more, and none for an empty budget, which changes nothing. Two runs in a row end like a single
run for what the first has used and the budget of the second. -/
theorem runFor_exact (trapless : machine.Trapless) (budget : UInt64)
    (hCounter : machine.processor.cycles.toNat + budget.toNat + 7 < 2 ^ 64) :
    ∃ count used after,
      (∀ run, machine.stepTimes run count = some (used, after)) ∧
      (∀ run fewer, fewer < count → ∃ less before,
        machine.stepTimes run fewer = some (less, before) ∧ less < budget.toNat) ∧
      budget.toNat ≤ used ∧ used ≤ budget.toNat + 7 ∧ 2 * count ≤ budget.toNat + 1 ∧
      (budget = 0 → count = 0 ∧ used = 0 ∧ after = machine) ∧
      (∀ bound next, run? bound (.runFor budget next) machine =
        if count < bound then run? bound (next (UInt64.ofNat used)) after else none) ∧
      ∀ later : UInt64, machine.processor.cycles.toNat + used + later.toNat + 7 < 2 ^ 64 →
        ∀ next result,
          Ends (.runFor budget fun first => .runFor later fun second => next (first + second))
              machine result ↔
            Ends (.runFor (UInt64.ofNat used + later) next) machine result := by
  obtain ⟨count, covers⟩ := machine.processor.exists_covers budget.toNat
  obtain ⟨hMost, hTwice⟩ := covers.bounds
  refine ⟨count, _, _, fun run => stepTimes_of_trapless trapless run count, fun run fewer hFewer => ?_,
    covers.1, hMost, hTwice, ?_, run?_runFor_of_covers trapless hCounter covers,
    fun later hBoth _ _ => ends_runFor_runFor_iff trapless hCounter covers hBoth⟩
  · exact ⟨_, _, stepTimes_of_trapless trapless run fewer, covers.2 fewer hFewer⟩
  · rintro rfl
    cases covers.eq_zero
    exact ⟨rfl, rfl, rfl⟩

/-- Two loads of four cycles each, and a jump back of three. -/
def loadingRam : Ram :=
  (((((Ram.zero.setVector resetVector 0x8000).write 0x8000 0xAD).write 0x8003 0xAD).write
    0x8006 0x4C).write 0x8007 0x00).write 0x8008 0x80

def loading : Machine Ram Empty := powerOn {} loadingRam

/-- The jump that crosses a budget of ten cycles is completed, so that eleven are used. -/
theorem runFor_exact_of_overshoot :
    loading.Trapless ∧ ∃ after, loading.stepTimes (run? 0) 3 = some (11, after) ∧
      (∀ bound next, run? bound (.runFor 10 next) loading =
        if 3 < bound then run? bound (next 11) after else none) ∧
      ∀ next result,
        Ends (.runFor 10 fun first => .runFor 5 fun second => next (first + second)) loading result ↔
          Ends (.runFor 16 next) loading result := by
  have trapless : loading.Trapless := fun _ => rfl
  obtain ⟨count, used, after, hSteps, hFewer, hEnough, _, _, _, hRun, hSlices⟩ :=
    runFor_exact trapless 10 (by decide)
  have hCount : count = 3 := by
    have hAtMost : ¬3 < count := fun hMore => by
      obtain ⟨less, before, hThree, hLess⟩ := hFewer (run? 0) 3 hMore
      cases hThree
      exact absurd hLess (by decide)
    have hAtLeast : ¬count < 3 := fun hLess => by
      obtain rfl | rfl | rfl : count = 0 ∨ count = 1 ∨ count = 2 := by omega
      all_goals cases hSteps (run? 0)
      all_goals exact absurd hEnough (by decide)
    omega
  subst hCount
  cases hSteps (run? 0)
  exact ⟨trapless, _, rfl, hRun, hSlices 5 (by decide)⟩

end Machine

end Mos6510
