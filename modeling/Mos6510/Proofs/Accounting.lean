import Mathlib.Algebra.GroupWithZero.Nat
import Mos6510.Proofs.Journal
import Mos6510.Ram

/-!
Accounting. A loop that steps reports how far the cycle counter has moved, and the journal tells the
cycles of every step. Main statement: the report of a loop is the sum of the cycles of the steps that
were taken meanwhile, by handlers as well, exactly when the counter neither overflowed nor was set
back by a reset. A handler that resets the processor therefore spoils the report.
-/

namespace Mos6510

variable {β ν : Type}

/-- The cycles of all steps that a journal tells of. -/
def spent (journal : List (Event ν)) : Nat := (journal.map Event.cycles).sum

@[simp] theorem spent_nil : spent ([] : List (Event ν)) = 0 := rfl

@[simp] theorem spent_cons (event : Event ν) (journal : List (Event ν)) :
    spent (event :: journal) = event.cycles + spent journal := by
  rw [spent, List.map_cons, List.sum_cons, spent]

theorem spent_append (later earlier : List (Event ν)) :
    spent (later ++ earlier) = spent later + spent earlier := by
  rw [spent, List.map_append, List.sum_append, spent, spent]

/-- Only services, instructions and resets concern the counter, and events without them cost
nothing. -/
theorem spent_of_passive {events : List (Event ν)} (hPassive : ∀ event ∈ events, event.IsPassive) :
    spent events = 0 := by
  induction events with
  | nil => rfl
  | cons event events ih =>
      rw [spent_cons, ih fun other h => hPassive other (by simp [h])]
      have hEvent := hPassive event (by simp)
      cases event <;> first | rfl | exact hEvent.elim

/-- The distance from one counter to another is some total, without wrapping around. -/
def Accounted (start finish : UInt64) (total : Nat) : Prop :=
  start ≤ finish ∧ (finish - start).toNat = total

/-- The events neither make a counter overflow nor set it back. -/
def Undisturbed (start : UInt64) (events : List (Event ν)) : Prop :=
  start.toNat + spent events < 2 ^ 64 ∧
    ∀ later target earlier, events = later ++ .reset target :: earlier →
      start.toNat + spent earlier = 0

/-- Without wrapping around, the distance is the total exactly if the counter is ahead by it as a
number. -/
theorem accounted_iff {start finish : UInt64} {total : Nat} :
    Accounted start finish total ↔ finish.toNat = start.toNat + total := by
  constructor
  · rintro ⟨hLe, hSum⟩
    rw [UInt64.toNat_sub_of_le finish start hLe] at hSum
    have hLe' := UInt64.le_iff_toNat_le.mp hLe
    omega
  · intro hSum
    have hLe : start ≤ finish := UInt64.le_iff_toNat_le.mpr (by omega)
    refine ⟨hLe, ?_⟩
    rw [UInt64.toNat_sub_of_le finish start hLe]
    omega

/-- If events do not disturb the counter, then neither do those that came before the latest of
them. -/
theorem Undisturbed.of_cons {start : UInt64} {event : Event ν} {events : List (Event ν)}
    (h : Undisturbed start (event :: events)) : Undisturbed start events := by
  obtain ⟨hBound, hResets⟩ := h
  rw [spent_cons] at hBound
  refine ⟨by omega, fun later target earlier hSplit => ?_⟩
  exact hResets (event :: later) target earlier (congrArg (event :: ·) hSplit)

namespace Standing

/-- An event that is not a reset advances the counter by its cycles. -/
theorem cycles_absorb (event : Event ν) (standing : Standing) :
    (∃ target, event = .reset target) ∨
      (absorb event standing).cycles = standing.cycles + UInt64.ofNat event.cycles := by
  cases event with
  | reset target => exact .inl ⟨target, rfl⟩
  | serviced => exact .inr rfl
  | executed => exact .inr rfl
  | _ => exact .inr (UInt64.add_zero _).symm

/-- The counter never gets ahead of the cycles that were spent. -/
theorem cycles_replay_le (events : List (Event ν)) (standing : Standing) :
    (replay events standing).cycles.toNat ≤ standing.cycles.toNat + spent events := by
  induction events with
  | nil => exact Nat.le_refl _
  | cons event events ih =>
      rw [replay_cons, spent_cons]
      rcases cycles_absorb event (replay events standing) with
        ⟨target, rfl⟩ | hAdvance
      · exact Nat.zero_le _
      · rw [hAdvance, UInt64.toNat_add, UInt64.toNat_ofNat']
        have hMod := Nat.mod_le ((replay events standing).cycles.toNat + event.cycles % 2 ^ 64) (2 ^ 64)
        have hCost := Nat.mod_le event.cycles (2 ^ 64)
        omega

/-- An undisturbed counter is ahead by what the events have cost, as a number and not just up to
wrapping. -/
theorem cycles_replay_of_undisturbed {events : List (Event ν)} {standing : Standing}
    (h : Undisturbed standing.cycles events) :
    (replay events standing).cycles.toNat = standing.cycles.toNat + spent events := by
  induction events with
  | nil => rfl
  | cons event events ih =>
      have hSum := ih h.of_cons
      obtain ⟨hBound, hResets⟩ := h
      rw [spent_cons] at hBound
      rw [replay_cons, spent_cons]
      rcases cycles_absorb event (replay events standing) with
        ⟨target, rfl⟩ | hAdvance
      · have hZero := hResets [] target events rfl
        simpa [absorb, Event.cycles] using hZero.symm
      · rw [hAdvance, UInt64.toNat_add, UInt64.toNat_ofNat', hSum,
          Nat.mod_eq_of_lt (by omega : event.cycles < 2 ^ 64), Nat.mod_eq_of_lt (by omega)]
        omega

/-- The counter accounts for the cycles exactly when nothing disturbs it. After a reset it tells at
most the cycles since then, which is less than all of them unless there were none before. -/
theorem accounted_replay_iff (events : List (Event ν)) (standing : Standing) :
    Accounted standing.cycles (replay events standing).cycles (spent events) ↔
      Undisturbed standing.cycles events := by
  rw [accounted_iff]
  refine ⟨fun hSum => ⟨?_, ?_⟩, cycles_replay_of_undisturbed⟩
  · rw [← hSum]
    exact UInt64.toNat_lt _
  · rintro later target earlier rfl
    have hLe := cycles_replay_le later (absorb (.reset target : Event ν) (replay earlier standing))
    have hZero : (absorb (.reset target : Event ν) (replay earlier standing)).cycles.toNat = 0 := rfl
    rw [replay_append, replay_cons, spent_append, spent_cons] at hSum
    omega

end Standing

namespace Machine

theorem spent_registerTrap (machine : Machine β ν) (address : Address) (handler : Handler β ν) :
    spent (machine.registerTrap address handler).2.journal = spent machine.journal := by
  unfold registerTrap
  split
  · rfl
  · exact Nat.zero_add _

theorem spent_leaveTrap (machine : Machine β ν) :
    spent machine.leaveTrap.journal = spent machine.journal := by
  unfold leaveTrap
  split
  · rfl
  · exact Nat.zero_add _

variable [Bus β]

/-- An instruction costs what the journal says of it, whatever is traced and written on the way. -/
theorem spent_execute (machine : Machine β ν) :
    spent machine.execute.journal = machine.processor.cost + spent machine.journal := by
  obtain ⟨passive, hPassive, hJournal⟩ := journal_execute machine
  rw [hJournal, spent_append, spent_append, spent_of_passive hPassive, spent_cons]
  split <;> simp [Event.cycles]

theorem spent_service (machine : Machine β ν) (kind : Interrupt) :
    spent (machine.service kind).journal = Interrupt.cycles + spent machine.journal := by
  obtain ⟨target, pushed, _, hJournal, hPassive, _⟩ := journal_service machine kind
  rw [hJournal, spent_cons, spent_append, spent_of_passive hPassive, Nat.zero_add]
  rfl

/-- Nothing that the host does to the processor from outside is charged for. -/
theorem spent_change (machine : Machine β ν) (operation : Change β) :
    spent (machine.change operation).journal = spent machine.journal := by
  cases operation <;> simp [change, changeEvents, record, Event.cycles]

end Machine

namespace Configuration

variable [Bus β] {before after : Configuration β ν}

/-- The cycles of the step that the transition of a configuration completes, if it completes one. -/
def charge : Configuration β ν → Nat
  | ⟨machine, .done, _ :: _⟩ => machine.leaveTrap.processor.cost
  | ⟨machine, .step _, _⟩ =>
    match machine.processor.pendingInterrupt, machine.enterTrap? with
    | some _, _ => Interrupt.cycles
    | none, none => machine.processor.cost
    | none, some _ => 0
  | _ => 0

/-- The journal tells the cycles of a step when the step is completed. -/
theorem spent_of_next? (h : before.next? = some after) :
    spent after.machine.journal = before.charge + spent before.machine.journal := by
  obtain ⟨machine, program, waiting⟩ := before
  cases program with
  | done =>
      cases waiting with
      | nil => cases h
      | cons resume waiting =>
          cases h
          rw [charge, ← machine.spent_leaveTrap]
          exact machine.leaveTrap.spent_execute
  | change operation =>
      cases h
      exact (machine.spent_change operation).trans (Nat.zero_add _).symm
  | step resume =>
      cases h
      cases hPending : machine.processor.pendingInterrupt with
      | some kind =>
          rw [beginStep_service hPending, machine.spent_service kind]
          simp only [charge, hPending]
      | none =>
          cases hEnter : machine.enterTrap? with
          | none =>
              rw [beginStep_execute hPending hEnter, machine.spent_execute]
              simp only [charge, hPending, hEnter]
          | some called =>
              obtain ⟨⟨handler, traps⟩, _, hEntered⟩ := Option.map_eq_some_iff.mp hEnter
              rw [beginStep_enter hPending hEnter]
              simp only [charge, hPending, hEnter]
              cases hEntered
              rfl
  | stepWhile condition next =>
      rw [next?] at h
      split at h <;> cases h <;> exact (Nat.zero_add _).symm
  | register address handler next =>
      cases h
      exact (machine.spent_registerTrap address handler).trans (Nat.zero_add _).symm
  | note entry next => cases h; rfl
  | _ => cases h; exact (Nat.zero_add _).symm

end Configuration

/-- The journal has grown by the cycles of the steps that were completed. -/
theorem Execution.spent_eq [Bus β] {first last : Configuration β ν}
    {history : List (Configuration β ν)} (run : Execution first history last) :
    spent last.machine.journal =
      (history.map Configuration.charge).sum + spent first.machine.journal := by
  induction run with
  | refl => exact (Nat.zero_add _).symm
  | next prior hNext ih =>
      rw [Configuration.spent_of_next? hNext, ih, List.map_cons, List.sum_cons, Nat.add_assoc]

namespace Machine

variable [Bus β] {machine after final : Machine β ν} {bound : Nat}

/-- A program ends in a machine whose cycle counter accounts for the steps completed meanwhile, nested
ones as well, exactly when nothing has disturbed it. -/
def AccountedIffUndisturbed (machine : Machine β ν) (program : Program β ν)
    (after : Machine β ν) : Prop :=
  ∃ history events, Execution (.start machine program) history (.start after .done) ∧
    after.journal = events ++ machine.journal ∧
    (Accounted machine.processor.cycles after.processor.cycles
        (history.map Configuration.charge).sum ↔
      Undisturbed machine.processor.cycles events)

/-- Whatever a program is, a run of it is accounted for exactly when nothing has disturbed the
counter. What its steps return is what the journal has of them. -/
theorem accountedIffUndisturbed_of_run? {program : Program β ν}
    (h : run? bound program machine = some after) :
    AccountedIffUndisturbed machine program after := by
  obtain ⟨history, run⟩ := realized_run? bound program machine after [] h
  obtain ⟨events, hJournal, hStanding⟩ := exists_accounts_of_moves run.moves
  have hCharges : (history.map Configuration.charge).sum = spent events := by
    have hSpent := run.spent_eq
    rw [hJournal, spent_append] at hSpent
    exact (Nat.add_right_cancel hSpent).symm
  have hCycles : after.processor.cycles =
      (Standing.replay events machine.processor.standing).cycles := congrArg Standing.cycles hStanding
  refine ⟨history, events, run, hJournal, ?_⟩
  rw [hCharges, hCycles]
  exact Standing.accounted_replay_iff events machine.processor.standing

/-- The loop that spends a budget goes on with the distance of the counter at its end. -/
theorem run?_runFor {budget : UInt64} {next : UInt64 → Program β ν}
    (h : run? bound (.runFor budget next) machine = some final) :
    ∃ after, run? bound (.runFor budget fun _ => .done) machine = some after ∧
      run? bound (next (after.processor.cycles - machine.processor.cycles)) after = some final := by
  cases bound with
  | zero => cases h
  | succ bound =>
      obtain ⟨after, hLoop, hRest⟩ := Option.bind_eq_some_iff.mp h
      exact ⟨after, Option.bind_eq_some_iff.mpr ⟨after, hLoop, rfl⟩, hRest⟩

/-- The loop that waits for a stall goes on with nothing when its limit is reached, and else with
the distance of the counter from where it was to start. -/
theorem run?_stepUntilStalled {start : UInt64} {next : Option UInt64 → Program β ν} {limit : Nat}
    (h : run? bound (.stepUntilStalled start next limit) machine = some final) :
    ∃ after used?, run? bound (.stepUntilStalled start (fun _ => .done) limit) machine = some after ∧
      run? bound (next used?) after = some final ∧
      (used? = none ∨ used? = some (after.processor.cycles - start)) := by
  cases bound with
  | zero => cases h
  | succ bound =>
      induction limit generalizing machine with
      | zero => exact ⟨machine, none, rfl, h, .inl rfl⟩
      | succ limit ih =>
          obtain ⟨⟨cost, stepped⟩, hStep, hRest⟩ := Option.bind_eq_some_iff.mp h
          by_cases hStall : stepped.processor.registers.pc = machine.processor.registers.pc
          · refine ⟨stepped, _, ?_, ?_, .inr rfl⟩
            · exact Option.bind_eq_some_iff.mpr
                ⟨(cost, stepped), hStep, by simp only [runWith, if_pos hStall]⟩
            · simpa only [run?, runWith, if_pos hStall] using hRest
          · simp only [runWith, if_neg hStall] at hRest
            obtain ⟨after, used?, hLoop, hNext, hUsed⟩ := ih hRest
            refine ⟨after, used?, ?_, hNext, hUsed⟩
            exact Option.bind_eq_some_iff.mpr
              ⟨(cost, stepped), hStep, by simpa only [run?, runWith, if_neg hStall] using hLoop⟩

/-- The same loop, when it starts to count at its own beginning. -/
theorem run?_runUntilStalled {next : Option UInt64 → Program β ν} {limit : Nat}
    (h : run? bound (.runUntilStalled limit next) machine = some final) :
    ∃ after used?, run? bound (.runUntilStalled limit fun _ => .done) machine = some after ∧
      run? bound (next used?) after = some final ∧
      (used? = none ∨ used? = some (after.processor.cycles - machine.processor.cycles)) := by
  cases bound with
  | zero => cases h
  | succ bound =>
      have hLoop : run? (bound + 1)
        (.stepUntilStalled machine.processor.cycles next limit) machine = some final := h
      exact run?_stepUntilStalled hLoop

/-- What a loop reports is the sum of the cycles of all steps completed during it exactly when those
steps neither overflow the counter nor come with a reset that sets it back. The machine, its traps and
what their handlers do are arbitrary. -/
theorem loops_accounted_iff {machine final : Machine β ν} {bound : Nat} :
    (∀ budget next, run? bound (.runFor budget next) machine = some final →
      ∃ after, AccountedIffUndisturbed machine (.runFor budget fun _ => .done) after ∧
        run? bound (next (after.processor.cycles - machine.processor.cycles)) after = some final) ∧
    (∀ limit next, run? bound (.runUntilStalled limit next) machine = some final →
      ∃ after used?, AccountedIffUndisturbed machine (.runUntilStalled limit fun _ => .done) after ∧
        (used? = none ∨ used? = some (after.processor.cycles - machine.processor.cycles)) ∧
        run? bound (next used?) after = some final) := by
  refine ⟨fun budget next h => ?_, fun limit next h => ?_⟩
  · obtain ⟨after, hLoop, hRest⟩ := run?_runFor h
    exact ⟨after, accountedIffUndisturbed_of_run? hLoop, hRest⟩
  · obtain ⟨after, used?, hLoop, hRest, hUsed⟩ := run?_runUntilStalled h
    exact ⟨after, used?, accountedIffUndisturbed_of_run? hLoop, hUsed, hRest⟩

/-- Two instructions that do nothing, and one that jumps to itself. -/
def idlingRam : Ram :=
  (((((Ram.zero.setVector resetVector 0x8000).write 0x8000 0xEA).write 0x8001 0xEA).write
    0x8002 0x4C).write 0x8003 0x02).write 0x8004 0x80

/-- Notes the cycles that a loop reports. -/
def noteUsed : Option UInt64 → Program Ram UInt64
  | some used => .note used .done
  | none => .done

/-- Without traps the loops report what the instructions take: two for a budget of three cycles, and
all of them for the run into the jump. -/
theorem loops_accounted_iff_of_idling :
    (∃ final, run? 9 (.runFor 3 fun used => noteUsed (some used)) (powerOn {} idlingRam) = some final ∧
      final.journal.head? = some (.noted 4) ∧
      ∃ after, AccountedIffUndisturbed (powerOn {} idlingRam) (.runFor 3 fun _ => .done) after ∧
        run? 9 (noteUsed (some (after.processor.cycles - 0))) after = some final) ∧
    (∃ final, run? 9 (.runUntilStalled 10 noteUsed) (powerOn {} idlingRam) = some final ∧
      final.journal.head? = some (.noted 7) ∧
      ∃ after used?,
        AccountedIffUndisturbed (powerOn {} idlingRam) (.runUntilStalled 10 fun _ => .done) after ∧
        (used? = none ∨ used? = some (after.processor.cycles - 0)) ∧
        run? 9 (noteUsed used?) after = some final) := by
  constructor
  · exact ⟨_, rfl, rfl, loops_accounted_iff.1 3 (fun used => noteUsed (some used)) rfl⟩
  · exact ⟨_, rfl, rfl, loops_accounted_iff.2 10 noteUsed rfl⟩

/-- A handler that resets the processor and goes on behind the trapped instruction. -/
def resettingHandler : Handler Ram UInt64 := fun address =>
  .change .reset (.change (.registers fun registers => { registers with pc := address + 1 }) .done)

/-- The instruction before the trap takes two cycles and each of the two jumps after it takes three,
but the handler sets the counter back and the loop reports the jumps alone. -/
theorem report_ne_sum_of_reset :
    ∃ final history,
      Execution (.powerOn {} idlingRam (.register 0x8001 resettingHandler fun _ =>
        .runUntilStalled 10 noteUsed)) history (.start final .done) ∧
      final.journal.head? = some (.noted 6) ∧ (history.map Configuration.charge).sum = 8 := by
  obtain ⟨final, hFinal, hReport, hSpent⟩ : ∃ final,
      run? 9 (.register 0x8001 resettingHandler fun _ => .runUntilStalled 10 noteUsed)
        (powerOn {} idlingRam) = some final ∧
      final.journal.head? = some (.noted 6) ∧ spent final.journal = 8 := ⟨_, rfl, rfl, rfl⟩
  obtain ⟨history, run⟩ := realized_run? 9 _ _ final [] hFinal
  have hSum := run.spent_eq
  exact ⟨final, history, run, hReport, hSum.symm.trans hSpent⟩

end Machine

end Mos6510
