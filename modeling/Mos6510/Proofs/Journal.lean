import Mos6510.Proofs.Execution

/-!
Journals can be replayed. The interrupt latch, the level of the non-maskable line, the halt and the
cycle counter of a processor are changed by nothing but what is written into the journal of its
machine. Main statement: any number of moves extends the journal, and what they make of these parts
of the processor is what the new events make of them. Properties of histories are therefore proved
by induction on the journal alone.
-/

namespace Mos6510

/-- The parts of a processor that its journal determines. -/
structure Standing where
  nmiPending : Bool
  nmiLevel : Bool
  jammed : Bool
  cycles : UInt64

/-- The parts of a processor that its journal determines. -/
def Processor.standing {β : Type} (processor : Processor β) : Standing where
  nmiPending := processor.lines.nmiPending
  nmiLevel := processor.lines.nmiLevel
  jammed := processor.jammed
  cycles := processor.cycles

namespace Standing

variable {ν : Type}

/-- Nothing pending, the line released, nothing counted. -/
def initial : Standing := ⟨false, false, false, 0⟩

/-- The standing after an event. -/
def absorb (event : Event ν) (standing : Standing) : Standing :=
  match event with
  | .reset _ => { standing with nmiPending := false, jammed := false, cycles := 0 }
  | .nmiDriven level =>
    { standing with
      nmiPending := standing.nmiPending || level && !standing.nmiLevel, nmiLevel := level }
  | .serviced kind _ _ =>
    { standing with
      nmiPending := standing.nmiPending && decide (kind ≠ .nmi)
      jammed := false
      cycles := standing.cycles + UInt64.ofNat Interrupt.cycles }
  | .jammed _ _ => { standing with jammed := true }
  | .executed _ _ cost => { standing with cycles := standing.cycles + UInt64.ofNat cost }
  | _ => standing

/-- The standing after the events of a journal, the latest of which comes first. -/
def replay (journal : List (Event ν)) (standing : Standing) : Standing :=
  journal.foldr absorb standing

@[simp] theorem replay_nil (standing : Standing) :
    replay ([] : List (Event ν)) standing = standing := rfl

@[simp] theorem replay_cons (event : Event ν) (journal : List (Event ν)) (standing : Standing) :
    replay (event :: journal) standing = absorb event (replay journal standing) := rfl

/-- A journal can be replayed in two parts, the earlier one first. -/
theorem replay_append (later earlier : List (Event ν)) (standing : Standing) :
    replay (later ++ earlier) standing = replay later (replay earlier standing) :=
  List.foldr_append

end Standing

/-- An event that neither enters an interrupt handler nor changes what a journal determines. -/
def Event.IsPassive {ν : Type} : Event ν → Prop
  | .trapEntered _ | .trapLeft _ | .traced _ | .sank _ | .wrote _ _ | .trapRefused _ _ | .noted _ => True
  | _ => False

/-- Passive events are those that a replay passes over. -/
theorem Standing.replay_of_passive {ν : Type} {journal : List (Event ν)}
    (h : ∀ event ∈ journal, event.IsPassive) (standing : Standing) :
    Standing.replay journal standing = standing := by
  induction journal with
  | nil => rfl
  | cons event journal ih =>
      rw [replay_cons, ih fun other hOther => h other (by simp [hOther])]
      have hPassive := h event (by simp)
      cases event <;> first | rfl | exact hPassive.elim

namespace Machine

variable {β ν : Type}

/-- The bytes that an instruction writes change nothing that a journal determines. -/
theorem isPassive_of_mem_writeEvents {effect : Effect} {event : Event ν}
    (h : event ∈ writeEvents effect) : event.IsPassive := by
  obtain ⟨write, _, rfl⟩ := List.mem_map.mp h
  trivial

variable {before after : Machine β ν}

/-- The new events account for the change of a machine's processor. -/
def Accounts (before : Machine β ν) (events : List (Event ν)) (after : Machine β ν) : Prop :=
  after.journal = events ++ before.journal ∧
    after.processor.standing = Standing.replay events before.processor.standing

theorem Accounts.trans {middle : Machine β ν} {earlier later : List (Event ν)}
    (left : Accounts before earlier middle) (right : Accounts middle later after) :
    Accounts before (later ++ earlier) after := by
  refine ⟨?_, ?_⟩
  · rw [right.1, left.1, List.append_assoc]
  · rw [right.2, left.2, Standing.replay_append]

variable [Bus β]

theorem isPassive_of_mem_traceEvents {machine : Machine β ν} {event : Event ν}
    (h : event ∈ machine.traceEvents) : event.IsPassive := by
  unfold traceEvents at h
  split at h
  · rcases List.mem_cons.mp h with rfl | hSink
    · trivial
    · split at hSink
      · cases List.mem_singleton.mp hSink
        trivial
      · cases hSink
  · cases h

/-- The latest event of an instruction is that it was carried out; before it stands that it stopped
the instruction stream, if it did, and the events before that are passive. -/
theorem journal_execute (machine : Machine β ν) :
    ∃ passive : List (Event ν), (∀ event ∈ passive, event.IsPassive) ∧
      machine.execute.journal =
        .executed machine.processor.registers.pc machine.processor.opcodeByte machine.processor.cost ::
          (if machine.processor.effect.halts && !machine.processor.jammed then
            [.jammed machine.processor.opcodeByte machine.processor.registers.pc] else []) ++
          passive ++ machine.journal := by
  refine ⟨(writeEvents machine.processor.effect).reverse ++ machine.traceEvents.reverse, ?_, ?_⟩
  · intro event h
    rcases List.mem_append.mp h with hWrite | hTrace
    · exact isPassive_of_mem_writeEvents (List.mem_reverse.mp hWrite)
    · exact isPassive_of_mem_traceEvents (List.mem_reverse.mp hTrace)
  · simp only [execute, record, executionEvents]
    split <;> simp

/-- The latest event of the entry into an interrupt handler is that it was entered, and before it
stand the bytes that it pushed, the flags as the last of them. -/
theorem journal_service (machine : Machine β ν) (kind : Interrupt) :
    ∃ target pushed first, (machine.service kind).journal =
      .serviced kind machine.processor.registers.pc target :: (pushed ++ machine.journal) ∧
      (∀ event ∈ pushed, event.IsPassive) ∧
      pushed = .wrote (Address.stack (machine.processor.registers.sp - 2))
        (machine.processor.registers.flags.pushed false) :: first := by
  refine ⟨_, [_, _, _], [_, _], rfl, ?_, rfl⟩
  simp [Event.IsPassive]

/-- A service is accounted for by its events: the pushes, which are passive, and itself. -/
theorem exists_accounts_service (machine : Machine β ν) (kind : Interrupt) :
    ∃ events, Accounts machine events (machine.service kind) := by
  obtain ⟨target, pushed, _, hJournal, hPassive, _⟩ := journal_service machine kind
  refine ⟨_ :: pushed, hJournal, ?_⟩
  rw [Standing.replay_cons, Standing.replay_of_passive hPassive]
  cases kind <;> simp [service, record, Processor.service, Processor.standing, Standing.absorb,
    Processor.apply, Lines.clearNmi]

/-- An instruction is accounted for by its events, none of which is a service. -/
theorem exists_accounts_execute (machine : Machine β ν) :
    ∃ events, Accounts machine events machine.execute ∧
      ∀ kind ret target, .serviced kind ret target ∉ events := by
  obtain ⟨passive, hPassive, hJournal⟩ := journal_execute machine
  refine ⟨_, ⟨hJournal, ?_⟩, ?_⟩
  · rw [Standing.replay_append, Standing.replay_of_passive hPassive, Standing.replay_cons]
    cases hHalts : machine.processor.effect.halts <;> cases hJammed : machine.processor.jammed <;>
      simp [execute, record, Processor.execute, Processor.apply, Processor.standing,
        Standing.absorb, hHalts, hJammed]
  · intro kind ret target h
    rcases List.mem_append.mp h with hOwn | hOther
    · rcases List.mem_cons.mp hOwn with hEq | hJam
      · cases hEq
      · split at hJam <;> simp at hJam
    · exact hPassive _ hOther

/-- A move enters an interrupt handler, or else its events tell of no such entry. -/
theorem Move.service_or_accounts (move : Move before after) :
    (∃ kind, before.processor.pendingInterrupt = some kind ∧ after = before.service kind) ∨
      ∃ events, Accounts before events after ∧
        ∀ kind ret target, .serviced kind ret target ∉ events := by
  cases move with
  | note entry => exact .inr ⟨[.noted entry], ⟨rfl, rfl⟩, by simp⟩
  | change operation =>
      refine .inr ⟨(changeEvents before.processor operation).reverse, ⟨rfl, ?_⟩, ?_⟩
      · cases operation <;> rfl
      · cases operation <;> simp [changeEvents]
  | setTracing on => exact .inr ⟨[], ⟨rfl, rfl⟩, by simp⟩
  | setSink on => exact .inr ⟨[], ⟨rfl, rfl⟩, by simp⟩
  | service kind hPending => exact .inl ⟨kind, hPending, rfl⟩
  | execute => exact .inr (exists_accounts_execute before)
  | enter entered handler hEnter =>
      obtain ⟨⟨handler, traps⟩, _, hEntered⟩ := Option.map_eq_some_iff.mp hEnter
      cases hEntered
      exact .inr ⟨[.trapEntered _], ⟨rfl, rfl⟩, by simp⟩
  | leave =>
      right
      unfold leaveTrap
      split
      · exact ⟨[], ⟨rfl, rfl⟩, by simp⟩
      · exact ⟨[.trapLeft _], ⟨rfl, rfl⟩, by simp⟩
  | register address handler =>
      right
      unfold registerTrap
      split
      · exact ⟨[], ⟨rfl, rfl⟩, by simp⟩
      · exact ⟨[.trapRefused _ _], ⟨rfl, rfl⟩, by simp⟩
  | remove address => exact .inr ⟨[], ⟨rfl, rfl⟩, by simp⟩

/-- Whatever moves are made, the new events account for them. -/
theorem exists_accounts_of_moves (moves : Moves before after) :
    ∃ events, Accounts before events after := by
  induction moves with
  | refl => exact ⟨[], rfl, rfl⟩
  | @tail middle after _ move ih =>
      obtain ⟨earlier, hEarlier⟩ := ih
      rcases move.service_or_accounts with ⟨kind, _, rfl⟩ | ⟨events, hEvents, _⟩
      · obtain ⟨events, hEvents⟩ := exists_accounts_service middle kind
        exact ⟨_, hEarlier.trans hEvents⟩
      · exact ⟨_, hEarlier.trans hEvents⟩

/-- What moves have made of a new machine, its journal makes of the initial standing. -/
theorem standing_eq_replay {setup : Setup} {bus : β} {machine : Machine β ν}
    (moves : Moves (powerOn setup bus) machine) :
    machine.processor.standing = Standing.replay machine.journal .initial := by
  obtain ⟨events, hJournal, hStanding⟩ := exists_accounts_of_moves moves
  rw [hStanding, hJournal, Standing.replay_append]
  rfl

end Machine

end Mos6510
