import Mos6510.Processor
import Mos6510.Proofs.StackCells

/-!
Stack discipline. Calls, interrupts and pushes leave bytes on the stack, and each has an operation
that takes them off again. The conventions differ: a call saves the address of its last byte and the
return adds one, a software interrupt saves the address two bytes on and a hardware one the program
counter itself, and the break bit of a saved status byte tells the two apart. Main statement: however
these operations nest, each one that takes bytes off recovers what the matching one has saved, from
any position of the stack pointer, as long as no more than 256 bytes are pending and nothing else
touches the stack.
-/

namespace Mos6510

open Address

/-- What an operation has put on the stack. -/
inductive Saved where
  /-- The instruction at an address has called a subroutine. -/
  | call (address : Address)
  /-- The instruction at an address has interrupted the program. -/
  | software (address : Address) (flags : Flags)
  /-- An interrupt has been serviced before the instruction at an address. -/
  | hardware (address : Address) (flags : Flags)
  | accumulator (value : UInt8)
  | status (flags : Flags)
  deriving DecidableEq, Repr

namespace Saved

/-- The bytes on the stack, the latest first. -/
def bytes : Saved → List UInt8
  | .call address => [(address + 2).low, (address + 2).page]
  | .software address flags => [flags.pushed true, (address + 2).low, (address + 2).page]
  | .hardware address flags => [flags.pushed false, address.low, address.page]
  | .accumulator value => [value]
  | .status flags => [flags.pushed true]

/-- The operation that takes the bytes off again. -/
def puller : Saved → Mnemonic
  | .call _ => .rts
  | .software _ _ | .hardware _ _ => .rti
  | .accumulator _ => .pla
  | .status _ => .plp

/-- The registers are as they should be once the bytes have been taken off. -/
def Recovered (saved : Saved) (registers : Registers) : Prop :=
  match saved with
  | .call address => registers.pc = address + 3
  | .software address flags => registers.pc = address + 2 ∧ registers.flags = flags
  | .hardware address flags => registers.pc = address ∧ registers.flags = flags
  | .accumulator value => registers.a = value
  | .status flags => registers.flags = flags

/-- All bytes that are pending, the latest first. -/
def pendingBytes (pending : List Saved) : List UInt8 := pending.flatMap bytes

@[simp] theorem pendingBytes_nil : pendingBytes [] = [] := rfl

@[simp] theorem pendingBytes_cons (saved : Saved) (pending : List Saved) :
    pendingBytes (saved :: pending) = saved.bytes ++ pendingBytes pending := List.flatMap_cons

end Saved

/-- A processor carries out an instruction or enters the handler of an interrupt, and that puts
something on the stack. -/
inductive Pushes (before : Processor Ram) : Saved → Processor Ram → Prop where
  | call (h : before.opcode.mnemonic = .jsr) :
      Pushes before (.call before.registers.pc) before.execute
  | software (h : before.opcode.mnemonic = .brk) :
      Pushes before (.software before.registers.pc before.registers.flags) before.execute
  | hardware (kind : Interrupt) (h : before.pendingInterrupt = some kind) :
      Pushes before (.hardware before.registers.pc before.registers.flags) (before.service kind)
  | accumulator (h : before.opcode.mnemonic = .pha) :
      Pushes before (.accumulator before.registers.a) before.execute
  | status (h : before.opcode.mnemonic = .php) :
      Pushes before (.status before.registers.flags) before.execute

/-- However bytes are pushed, the pointer goes down by their number and they lie on top of each
other from where it stood. -/
theorem Pushes.spec {before after : Processor Ram} {saved : Saved} (h : Pushes before saved after) :
    after.registers.sp = before.registers.sp - UInt8.ofNat saved.bytes.length ∧
      after.bus = before.bus.pushAll before.registers.sp saved.bytes := by
  cases h with
  | hardware kind h =>
      simp [Processor.service, Processor.apply, Processor.entry, Effect.interruption, Saved.bytes,
        Ram.pushAll, stackCell, Bus.write]
  | _ h =>
      simp [Processor.execute, Processor.apply, Processor.effect, Opcode.effect, h, Mnemonic.action,
        Effect.interruption, Saved.bytes, Ram.pushAll, stackCell, Bus.write]

namespace Processor

section

variable {β : Type} [Bus β] (processor : Processor β)

/-- The byte at some distance above the one that the stack pointer points to. -/
def above (distance : UInt8) : UInt8 := processor.read (stack (processor.registers.sp + distance))

variable {processor}

/-- A return from a call goes on behind the address that it pulls. -/
theorem execute_rts (h : processor.opcode.mnemonic = .rts) :
    processor.execute.registers =
        { processor.registers with
          sp := processor.registers.sp + 2
          pc := ofBytes (processor.above 1) (processor.above 2) + 1 } ∧
      processor.execute.bus = processor.bus := by
  simp [execute, apply, effect, Opcode.effect, h, Mnemonic.action, above]

/-- A return from an interrupt goes on at the very address that it pulls. -/
theorem execute_rti (h : processor.opcode.mnemonic = .rti) :
    processor.execute.registers =
        { processor.registers with
          sp := processor.registers.sp + 3
          pc := ofBytes (processor.above 2) (processor.above 3)
          flags := Flags.ofByte (processor.above 1) } ∧
      processor.execute.bus = processor.bus := by
  simp [execute, apply, effect, Opcode.effect, h, Mnemonic.action, above, Registers.loadFlags]

theorem execute_pla (h : processor.opcode.mnemonic = .pla) :
    processor.execute.registers.a = processor.above 1 ∧
      processor.execute.registers.sp = processor.registers.sp + 1 ∧
      processor.execute.bus = processor.bus := by
  simp [execute, apply, effect, Opcode.effect, h, Mnemonic.action, above, Registers.loadA]

theorem execute_plp (h : processor.opcode.mnemonic = .plp) :
    processor.execute.registers.flags = Flags.ofByte (processor.above 1) ∧
      processor.execute.registers.sp = processor.registers.sp + 1 ∧
      processor.execute.bus = processor.bus := by
  simp [execute, apply, effect, Opcode.effect, h, Mnemonic.action, above, Registers.loadFlags]

end

variable {before : Processor Ram} {saved : Saved} {base : UInt8} {below : List UInt8}

/-- A byte that is held is found above the stack pointer, as far up as there are later ones. -/
theorem above_of_holds {bytes : List UInt8}
    (hPointer : before.registers.sp = base - UInt8.ofNat bytes.length)
    (hHeld : before.bus.Holds base bytes) (first rest : List UInt8) (byte : UInt8)
    (hBytes : bytes = first ++ byte :: rest) :
    before.above (UInt8.ofNat (first.length + 1)) = byte := by
  rw [hBytes] at hPointer hHeld
  rw [above, hPointer]
  exact hHeld.read_above

/-- The return from an interrupt recovers what an interrupt of either kind has pushed. -/
theorem execute_rti_of_holds {address : Address} {flags : Flags} {software : Bool}
    (h : before.opcode.mnemonic = .rti)
    (hPointer : before.registers.sp = base -
      UInt8.ofNat (flags.pushed software :: address.low :: address.page :: below).length)
    (hHeld : before.bus.Holds base
      (flags.pushed software :: address.low :: address.page :: below)) :
    before.execute.registers =
        { before.registers with sp := before.registers.sp + 3, pc := address, flags } ∧
      before.execute.bus = before.bus := by
  have hAbove := above_of_holds hPointer hHeld
  have hFlags : before.above 1 = flags.pushed software := hAbove [] _ _ rfl
  have hLow : before.above 2 = address.low := hAbove [_] _ _ rfl
  have hPage : before.above 3 = address.page := hAbove [_, _] _ _ rfl
  obtain ⟨hRegisters, hBus⟩ := execute_rti h
  rw [hFlags, hLow, hPage, ofBytes_low_page, Flags.ofByte_pushed] at hRegisters
  exact ⟨hRegisters, hBus⟩

/-- The matching operation recovers what bytes on the stack were put there for. It takes off as many
bytes and changes no memory. -/
theorem execute_puller (h : before.opcode.mnemonic = saved.puller)
    (hPointer : before.registers.sp = base - UInt8.ofNat (saved.bytes ++ below).length)
    (hHeld : before.bus.Holds base (saved.bytes ++ below)) :
    before.execute.registers.sp = base - UInt8.ofNat below.length ∧
      before.execute.bus = before.bus ∧ saved.Recovered before.execute.registers := by
  have hAbove := above_of_holds hPointer hHeld
  have hBelow : before.registers.sp + UInt8.ofNat saved.bytes.length =
      base - UInt8.ofNat below.length := by
    rw [hPointer, List.length_append, UInt8.ofNat_add]
    grind
  rw [← hBelow]
  cases saved with
  | call address =>
      have hLow : before.above 1 = (address + 2).low := hAbove [] _ _ rfl
      have hPage : before.above 2 = (address + 2).page := hAbove [_] _ _ rfl
      obtain ⟨hRegisters, hBus⟩ := execute_rts h
      rw [hRegisters, hLow, hPage, ofBytes_low_page]
      exact ⟨rfl, hBus, UInt16.add_assoc address 2 1⟩
  | software address flags =>
      obtain ⟨hRegisters, hBus⟩ := execute_rti_of_holds h hPointer hHeld
      rw [hRegisters]
      exact ⟨rfl, hBus, rfl, rfl⟩
  | hardware address flags =>
      obtain ⟨hRegisters, hBus⟩ := execute_rti_of_holds h hPointer hHeld
      rw [hRegisters]
      exact ⟨rfl, hBus, rfl, rfl⟩
  | accumulator value =>
      have hValue : before.above 1 = value := hAbove [] _ _ rfl
      obtain ⟨hA, hPointer', hBus⟩ := execute_pla h
      exact ⟨hPointer', hBus, hA.trans hValue⟩
  | status flags =>
      have hFlags : before.above 1 = flags.pushed true := hAbove [] _ _ rfl
      obtain ⟨hStatus, hPointer', hBus⟩ := execute_plp h
      rw [hFlags, Flags.ofByte_pushed] at hStatus
      exact ⟨hPointer', hBus, hStatus⟩

end Processor

/-- What happens between operations on the stack leaves the stack pointer, page one and some other
addresses alone. -/
def KeepsStack (kept : Address → Prop) (before after : Processor Ram) : Prop :=
  after.registers.sp = before.registers.sp ∧
    ∀ address, address.page = 1 ∨ kept address → after.bus.read address = before.bus.read address

/-- What can be reached from a starting point by operations that nest: what is pending, the latest
first, and the largest number of bytes that were pending at once. An operation that takes bytes off
matches the latest one that is pending. -/
inductive Nests (kept : Address → Prop) (start : Processor Ram) :
    List Saved → Nat → Processor Ram → Prop where
  | start : Nests kept start [] 0 start
  | other {pending : List Saved} {deepest : Nat} {before after : Processor Ram}
      (prior : Nests kept start pending deepest before) (hKeeps : KeepsStack kept before after) :
      Nests kept start pending deepest after
  | push {pending : List Saved} {deepest : Nat} {before after : Processor Ram} {saved : Saved}
      (prior : Nests kept start pending deepest before) (hPush : Pushes before saved after)
      (hRoom : (Saved.pendingBytes (saved :: pending)).length ≤ 256) :
      Nests kept start (saved :: pending)
        (max deepest (Saved.pendingBytes (saved :: pending)).length) after
  | pull {pending : List Saved} {deepest : Nat} {before : Processor Ram} {saved : Saved}
      (prior : Nests kept start (saved :: pending) deepest before)
      (hPull : before.opcode.mnemonic = saved.puller) :
      Nests kept start pending deepest before.execute

/-- The stack holds what is pending, and memory beyond its deepest cell is as it was. -/
structure StackIntact (kept : Address → Prop) (start : Processor Ram) (pending : List Saved)
    (deepest : Nat) (processor : Processor Ram) : Prop where
  pointer : processor.registers.sp =
    start.registers.sp - UInt8.ofNat (Saved.pendingBytes pending).length
  held : processor.bus.Holds start.registers.sp (Saved.pendingBytes pending)
  deep : (Saved.pendingBytes pending).length ≤ deepest
  untouched : ∀ address, address.page = 1 ∨ kept address →
    (∀ depth < deepest, address ≠ stackCell start.registers.sp depth) →
      processor.bus.read address = start.bus.read address

section

variable {kept : Address → Prop} {start before after : Processor Ram} {pending : List Saved}
  {deepest : Nat} {saved : Saved}

namespace StackIntact

/-- Whoever keeps the stack keeps what is pending there. -/
theorem other (intact : StackIntact kept start pending deepest before)
    (hKeeps : KeepsStack kept before after) : StackIntact kept start pending deepest after := by
  refine ⟨hKeeps.1.trans intact.pointer, ?_, intact.deep, ?_⟩
  · apply intact.held.congr
    intro depth _
    exact hKeeps.2 _ (.inl (page_ofBytes _ 1))
  · intro address hKept hBeyond
    rw [hKeeps.2 address hKept, intact.untouched address hKept hBeyond]

/-- A push changes no byte of memory but those that are pending afterwards. -/
theorem read_push (intact : StackIntact kept start pending deepest before)
    (hPush : Pushes before saved after) {address : Address}
    (h : ∀ depth < (Saved.pendingBytes (saved :: pending)).length,
      address ≠ stackCell start.registers.sp depth) :
    after.bus.read address = before.bus.read address := by
  rw [hPush.spec.2, intact.pointer]
  apply Ram.read_pushAll_of_ne
  intro depth hDepth
  rw [stackCell_sub]
  apply h
  rw [Saved.pendingBytes_cons, List.length_append]
  omega

/-- A push adds what it has saved to what is pending, and may reach deeper than any before. -/
theorem push (intact : StackIntact kept start pending deepest before)
    (hPush : Pushes before saved after)
    (hRoom : (Saved.pendingBytes (saved :: pending)).length ≤ 256) :
    StackIntact kept start (saved :: pending)
      (max deepest (Saved.pendingBytes (saved :: pending)).length) after := by
  obtain ⟨hPointer, hBus⟩ := hPush.spec
  refine ⟨?_, ?_, Nat.le_max_right _ _, ?_⟩
  · rw [hPointer, intact.pointer, Saved.pendingBytes_cons, List.length_append, UInt8.ofNat_add]
    grind
  · rw [Saved.pendingBytes_cons, List.length_append] at hRoom
    rw [hBus, intact.pointer, Saved.pendingBytes_cons]
    exact intact.held.pushAll saved.bytes hRoom
  · intro address hKept hBeyond
    rw [intact.read_push hPush fun depth hDepth => hBeyond depth (by omega)]
    exact intact.untouched address hKept fun depth hDepth => hBeyond depth (by omega)

/-- The matching pull takes off what was saved last, and what is pending below stays. -/
theorem pull (intact : StackIntact kept start (saved :: pending) deepest before)
    (hPull : before.opcode.mnemonic = saved.puller) :
    StackIntact kept start pending deepest before.execute := by
  obtain ⟨hPointer, hBus, _⟩ := Processor.execute_puller hPull intact.pointer intact.held
  have hDeep := intact.deep
  rw [Saved.pendingBytes_cons, List.length_append] at hDeep
  refine ⟨hPointer, ?_, by omega, ?_⟩
  · rw [hBus]
    exact intact.held.of_append
  · rw [hBus]
    exact intact.untouched

end StackIntact

namespace Nests

/-- However the operations have nested, the stack holds what is pending. -/
theorem intact (run : Nests kept start pending deepest before) :
    StackIntact kept start pending deepest before := by
  induction run with
  | start => exact ⟨(UInt8.sub_zero _).symm, trivial, Nat.le_refl _, fun _ _ _ => rfl⟩
  | other _ hKeeps ih => exact ih.other hKeeps
  | push _ hPush hRoom ih => exact ih.push hPush hRoom
  | pull _ hPull ih => exact ih.pull hPull

/-- However operations on the stack nest, each that takes bytes off recovers what the matching one
saved, and the stack pointer is back when nothing is pending. Taking off changes no memory, putting on
changes only the cells that are pending then, and in the end no byte beyond the cells ever pending has
changed that nothing else has changed. -/
theorem recovers (run : Nests kept start pending deepest before) :
    before.registers.sp =
      start.registers.sp - UInt8.ofNat (Saved.pendingBytes pending).length ∧
    (pending = [] → before.registers.sp = start.registers.sp) ∧
    (∀ saved below, pending = saved :: below → before.opcode.mnemonic = saved.puller →
      saved.Recovered before.execute.registers ∧ before.execute.bus = before.bus) ∧
    (∀ saved after, Pushes before saved after → ∀ address,
      (∀ depth < (Saved.pendingBytes (saved :: pending)).length,
        address ≠ stackCell start.registers.sp depth) →
      after.bus.read address = before.bus.read address) ∧
    (∀ address, address.page = 1 ∨ kept address →
      (∀ depth < deepest, address ≠ stackCell start.registers.sp depth) →
      before.bus.read address = start.bus.read address) := by
  have intact := run.intact
  refine ⟨intact.pointer, ?_, ?_, fun _ _ hPush _ => intact.read_push hPush, intact.untouched⟩
  · rintro rfl
    exact intact.pointer.trans (UInt8.sub_zero _)
  · rintro saved below rfl hPull
    obtain ⟨_, hBus, hRecovered⟩ := Processor.execute_puller hPull intact.pointer intact.held
    exact ⟨hRecovered, hBus⟩

/-- A subroutine that saves the accumulator, and the handler of an interrupt, which returns. -/
def nestingRam : Ram :=
  (((((((Ram.zero.setVector 0xFFFA 0xA000).write 0x8000 0x20).setVector 0x8001 0x9000).write
    0x9000 0x48).write 0x9001 0x68).write 0x9002 0x60).write 0xA000 0x40)

/-- A processor that is about to call the subroutine, with its stack pointer at the low end of the
page. -/
def nestingStart : Processor Ram where
  registers := { Registers.powerOn 0x8000 with sp := 0, a := 7 }
  lines := .released
  jammed := false
  cycles := 0
  bus := nestingRam

/-- The stack wraps within its page during the call, the interrupt arrives while the accumulator is
saved, and the return still finds its way. -/
theorem recovers_of_wrapping :
    ∃ processor, Nests (fun _ => True) nestingStart [.call 0x8000] 6 processor ∧
      processor.registers.sp = 0xFE ∧ processor.registers.a = 7 ∧
      processor.execute.registers.pc = 0x8003 := by
  have called : Nests (fun _ => True) nestingStart [.call 0x8000] 2 nestingStart.execute :=
    .push .start (.call rfl) (by decide)
  have pushed : Nests (fun _ => True) nestingStart [.accumulator 7, .call 0x8000] 3
      nestingStart.execute.execute := .push called (.accumulator rfl) (by decide)
  have asserted : Nests (fun _ => True) nestingStart [.accumulator 7, .call 0x8000] 3
      { nestingStart.execute.execute with lines := Lines.released.driveNmi true } :=
    .other pushed ⟨rfl, fun _ _ => rfl⟩
  have interrupted : Nests (fun _ => True) nestingStart
      [.hardware 0x9001 Flags.powerOn, .accumulator 7, .call 0x8000] 6 _ :=
    .push asserted (.hardware .nmi rfl) (by decide)
  have resumed := interrupted.pull rfl
  have restored := resumed.pull rfl
  obtain ⟨_, _, hAccumulator, _⟩ := resumed.recovers
  obtain ⟨hPointer, _, hReturn, _⟩ := restored.recovers
  exact ⟨_, restored, hPointer, (hAccumulator _ _ rfl rfl).1, (hReturn _ _ rfl rfl).1⟩

end Nests

end

end Mos6510
