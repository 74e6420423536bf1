import Mos6510.Proofs.BinaryNumbers
import Mos6510.Proofs.MemoryRuns

/-!
Numbers of many bytes that are shifted in memory. A program moves the bits of a number by one place
byte by byte: the bit that leaves one byte is the carry that enters the next one, upwards from the
lowest byte or downwards from the highest. Main statement: the whole number is doubled or halved, the
carry is the bit that has left it, and no other cell changes; and if the carry is let in too, then a
rotation downwards undoes one upwards.
-/

namespace Mos6510

/-- The ways in which the bits of a number move by one place. -/
inductive Direction where
  | up
  | down
  deriving DecidableEq

namespace Direction

/-- What it leaves of a byte to move its bits. -/
def outcome : Direction → Bool → UInt8 → Flags → Outcome
  | up => Arithmetic.shiftLeft
  | down => Arithmetic.shiftRight

/-- The bits of a number have moved within those below a modulus: one bit has entered at one end, and
one has left at the other. -/
def Moves (direction : Direction) (modulus before after : Nat) (enters leaves : Bool) : Prop :=
  match direction with
  | up => after + modulus * leaves.toNat = 2 * before + enters.toNat
  | down => 2 * after + leaves.toNat = before + modulus * enters.toNat

/-- The bytes of a number, the lowest first, from bytes in the order in which bits pass them; and the
other way round. -/
def order : Direction → List Address → List Address
  | up, cells => cells
  | down, cells => cells.reverse

/-- The order of the bytes is another one for each direction, but they are the same bytes. -/
theorem mem_order {direction : Direction} {cell : Address} {cells : List Address} :
    cell ∈ direction.order cells ↔ cell ∈ cells := by
  cases direction with
  | up => rfl
  | down => exact List.mem_reverse

/-- On one byte both operations move the bits as they should. The bit that leaves is in the
carry. -/
theorem outcome_moves (direction : Direction) (enters : Bool) (value : UInt8) (flags : Flags) :
    direction.Moves 256 value.toNat (direction.outcome enters value flags).value.toNat enters
      (direction.outcome enters value flags).flags.carry := by
  have hValue := value.toNat_lt
  have hEnters := enters.toNat_le
  cases direction with
  | up =>
      simp only [Moves, outcome, Arithmetic.shiftLeft, UInt8.toNat_ofNat', Arithmetic.isNegative_eq]
      by_cases h : 128 ≤ value.toNat
      · rw [decide_eq_true h, Bool.toNat_true]
        omega
      · rw [decide_eq_false h, Bool.toNat_false]
        omega
  | down =>
      simp only [Moves, outcome, Arithmetic.shiftRight, UInt8.toNat_ofNat']
      by_cases h : value.toNat % 2 = 1
      · rw [decide_eq_true h, Bool.toNat_true]
        omega
      · rw [decide_eq_false h, Bool.toNat_false]
        omega

end Direction

/-- The number that some cells hold, the lowest byte first. -/
def storedNumber (read : Address → UInt8) (cells : List Address) : Nat :=
  binary.value (cells.map read)

section

variable {read read' : Address → UInt8} {cells : List Address}

/-- The lowest byte counts once, and those above it count in steps of it. -/
theorem storedNumber_cons (cell : Address) (cells : List Address) :
    storedNumber read (cell :: cells) = (read cell).toNat + 256 * storedNumber read cells :=
  Nat.ofDigits_cons ..

/-- The highest byte counts for all places below it. -/
theorem storedNumber_append_singleton (cells : List Address) (cell : Address) :
    storedNumber read (cells ++ [cell]) =
      storedNumber read cells + 256 ^ cells.length * (read cell).toNat := by
  rw [storedNumber, List.map_append, List.map_singleton, binary.value_append_singleton,
    List.length_map]
  rfl

theorem storedNumber_lt (read : Address → UInt8) (cells : List Address) :
    storedNumber read cells < 256 ^ cells.length := by
  have hBound : storedNumber read cells < 256 ^ (cells.map read).length :=
    binary.value_lt fun _ _ => trivial
  rwa [List.length_map] at hBound

theorem storedNumber_congr (h : ∀ cell ∈ cells, read cell = read' cell) :
    storedNumber read cells = storedNumber read' cells :=
  congrArg binary.value (List.map_congr_left h)

/-- Numbers that are equal are made of equal bytes. -/
theorem read_eq_of_storedNumber_eq (h : storedNumber read cells = storedNumber read' cells) :
    ∀ cell ∈ cells, read cell = read' cell := by
  induction cells with
  | nil => exact fun _ hCell => absurd hCell List.not_mem_nil
  | cons cell cells ih =>
      have hFirst := (read cell).toNat_lt
      have hFirst' := (read' cell).toNat_lt
      rw [storedNumber_cons, storedNumber_cons] at h
      refine List.forall_mem_cons.mpr ⟨UInt8.toNat_inj.mp (by omega), ih (by omega)⟩

end

namespace Direction

variable {direction : Direction} {read read' : Address → UInt8} {cell : Address}
  {passed : List Address} {enters between leaves : Bool}

/-- If the bits of one byte move and the one that leaves it enters the bytes behind it, then those of
all the bytes together have moved. -/
theorem Moves.cons
    (first : direction.Moves 256 (read cell).toNat (read' cell).toNat enters between)
    (others : direction.Moves (256 ^ passed.length) (storedNumber read (direction.order passed))
      (storedNumber read' (direction.order passed)) between leaves) :
    direction.Moves (256 ^ (cell :: passed).length)
      (storedNumber read (direction.order (cell :: passed)))
      (storedNumber read' (direction.order (cell :: passed))) enters leaves := by
  cases direction with
  | up =>
      simp only [Moves, order, storedNumber_cons, List.length_cons, pow_succ] at first others ⊢
      linear_combination first + 256 * others
  | down =>
      simp only [Moves, order, List.reverse_cons, storedNumber_append_singleton, List.length_reverse,
        List.length_cons, pow_succ] at first others ⊢
      linear_combination others + 256 ^ passed.length * first

end Direction

/-- An instruction that moves the bits of a cell. It lets the carry in if it rotates, and a zero if it
does not. -/
structure BitMove where
  direction : Direction
  rotates : Bool
  cell : Address
  deriving DecidableEq

namespace BitMove

variable {move : BitMove} {processor : Processor Ram}

def mnemonic (move : BitMove) : Mnemonic :=
  match move.direction, move.rotates with
  | .up, false => .asl
  | .up, true => .rol
  | .down, false => .lsr
  | .down, true => .ror

/-- Both ways to move bits are one operation. What a rotation takes from the carry, a shift takes as
clear. -/
theorem action_mnemonic (move : BitMove) :
    move.mnemonic.action = .alterOnly fun value flags =>
      move.direction.outcome (move.rotates && flags.carry) value flags := by
  obtain ⟨direction, rotates, cell⟩ := move
  cases direction <;> cases rotates <;> rfl

/-- The opcode of the instruction when its operand is an address. -/
def absolute (move : BitMove) : UInt8 :=
  match move.direction, move.rotates with
  | .up, false => 0x0E
  | .up, true => 0x2E
  | .down, false => 0x4E
  | .down, true => 0x6E

/-- The machine code of the instruction when its operand is an address. -/
def code (move : BitMove) : List UInt8 := [move.absolute, move.cell.low, move.cell.page]

/-- Each way to move bits has a documented opcode that takes the address of its byte. -/
theorem ofByte_absolute (move : BitMove) :
    Opcode.ofByte move.absolute = ⟨move.mnemonic, .absolute, 6, true⟩ := by
  obtain ⟨direction, rotates, cell⟩ := move
  cases direction <;> cases rotates <;> rfl

/-- The instruction at the program counter is the given one, in whatever mode of addressing. -/
structure IsNext (move : BitMove) (processor : Processor Ram) : Prop where
  mnemonic : processor.opcode.mnemonic = move.mnemonic
  mode : processor.opcode.mode ≠ .accumulator
  target : processor.target = move.cell

theorem IsNext.execute (isNext : move.IsNext processor) :
    let outcome := move.direction.outcome (move.rotates && processor.registers.flags.carry)
      (processor.read move.cell) processor.registers.flags
    processor.execute.bus = processor.bus.write move.cell outcome.value ∧
      processor.execute.registers.flags = outcome.flags := by
  have hEffect : processor.effect = _ := processor.opcode.effect_of_modify processor.read
    processor.registers (by rw [isNext.mnemonic, move.action_mnemonic]; rfl) isNext.mode
  have hTarget := isNext.target
  rw [Processor.target] at hTarget
  rw [hTarget] at hEffect
  refine ⟨?_, ?_⟩
  · simp only [Processor.execute, Processor.apply, hEffect]
    rfl
  · rw [Processor.registers_execute_of_vector_none (by rw [hEffect]), hEffect]

/-- One instruction moves the bits of its cell, takes the carry before it puts out another, and touches
no other cell. -/
theorem IsNext.moves (isNext : move.IsNext processor) :
    move.direction.Moves 256 (processor.read move.cell).toNat
        (processor.execute.read move.cell).toNat
        (move.rotates && processor.registers.flags.carry) processor.execute.registers.flags.carry ∧
      ∀ address, address ≠ move.cell →
        processor.execute.read address = processor.read address := by
  obtain ⟨hBus, hFlags⟩ := isNext.execute
  refine ⟨?_, fun address hOther => ?_⟩
  · have hRead : processor.execute.read move.cell = _ :=
      (congrArg (Ram.read · move.cell) hBus).trans (Ram.read_write_self ..)
    rw [hRead, hFlags]
    exact move.direction.outcome_moves ..
  · exact (congrArg (Ram.read · address) hBus).trans (Ram.read_write_of_ne _ _ hOther)

section

variable (hStored : readRun processor.read processor.registers.pc move.code.length = move.code)
include hStored

/-- What is stored for a move is the instruction that makes it. -/
theorem opcode_of_stored : processor.opcode = ⟨move.mnemonic, .absolute, 6, true⟩ := by
  rw [code, List.length_cons, readRun] at hStored
  rw [Processor.opcode, Processor.opcodeByte, (List.cons_eq_cons.mp hStored).1, move.ofByte_absolute]

/-- Where its machine code is in memory, an instruction is the next one. -/
theorem isNext_of_stored : move.IsNext processor := by
  have hOpcode := opcode_of_stored hStored
  refine ⟨by rw [hOpcode], ?_, ?_⟩
  · rw [hOpcode]
    exact Mode.noConfusion
  · simp only [code, List.length_cons, List.length_nil, readRun, List.cons.injEq, and_true] at hStored
    rw [Processor.target, hOpcode]
    simp only [Mode.resolve, EffectiveAddress.direct, readWord, hStored, Address.ofBytes_low_page]

/-- Behind the code of a move comes the code of the next one. -/
theorem pc_execute_of_stored :
    processor.execute.registers.pc = processor.registers.pc + UInt16.ofNat move.code.length := by
  have hOpcode := opcode_of_stored hStored
  rw [Processor.pc_execute_of_sequential, hOpcode]
  · rfl
  · rw [hOpcode, Mnemonic.isControlFlow, move.action_mnemonic]
    rfl

end

end BitMove

/-- What happens between the instructions of a chain leaves memory and the carry alone. -/
def KeepsMemory (before after : Processor Ram) : Prop :=
  after.bus = before.bus ∧ after.registers.flags.carry = before.registers.flags.carry

theorem KeepsMemory.refl (processor : Processor Ram) : KeepsMemory processor processor := ⟨rfl, rfl⟩

/-- Instructions that move the bits of cells are carried out, one after another. -/
inductive MoveChain : Processor Ram → List BitMove → Processor Ram → Prop where
  | done (processor : Processor Ram) : MoveChain processor [] processor
  | move {before operating finish : Processor Ram} {move : BitMove} {later : List BitMove}
      (hBefore : KeepsMemory before operating)
      (isNext : move.IsNext operating)
      (others : MoveChain operating.execute later finish) :
      MoveChain before (move :: later) finish

/-- The instructions that move the bits of a number through its cells, which are in the order in which
the bits pass them. The first one lets the carry in if it rotates; the others let in what leaves the
cell before. -/
def Direction.pass (direction : Direction) : (rotates : Bool) → List Address → List BitMove
  | _, [] => []
  | rotates, cell :: passed => ⟨direction, rotates, cell⟩ :: direction.pass true passed

namespace MoveChain

variable {start finish : Processor Ram} {direction : Direction} {rotates : Bool}
  {passed : List Address}

/-- A chain of moves can be taken apart where the list of them is. -/
theorem exists_of_append {first second : List BitMove}
    (chain : MoveChain start (first ++ second) finish) :
    ∃ middle, MoveChain start first middle ∧ MoveChain middle second finish := by
  induction first generalizing start with
  | nil => exact ⟨start, .done start, chain⟩
  | cons move first ih =>
      cases chain with
      | move hBefore isNext others =>
          obtain ⟨middle, hFirst, hSecond⟩ := ih others
          exact ⟨middle, .move hBefore isNext hFirst, hSecond⟩

/-- Through distinct cells the bits of the whole number move, and no other cell changes. -/
theorem moves (chain : MoveChain start (direction.pass rotates passed) finish)
    (hDistinct : passed.Nodup) (hRotates : passed = [] → rotates = true) :
    direction.Moves (256 ^ passed.length) (storedNumber start.read (direction.order passed))
        (storedNumber finish.read (direction.order passed))
        (rotates && start.registers.flags.carry) finish.registers.flags.carry ∧
      ∀ address ∉ passed, finish.read address = start.read address := by
  induction passed generalizing rotates start with
  | nil =>
      cases chain
      rw [hRotates rfl, Bool.true_and]
      refine ⟨?_, fun _ _ => rfl⟩
      cases direction <;> simp [Direction.Moves, Direction.order, storedNumber]
  | cons cell passed ih =>
      cases chain with
      | @move _ operating _ _ _ hBefore isNext others =>
          obtain ⟨hNew, hLater⟩ := List.nodup_cons.mp hDistinct
          obtain ⟨hFirst, hKept⟩ := isNext.moves
          obtain ⟨hOthers, hFrame⟩ := ih others hLater fun _ => rfl
          have hRead : operating.read = start.read := congrArg Ram.read hBefore.1
          rw [hRead, hBefore.2, ← hFrame cell hNew] at hFirst
          -- the cells behind are still as they were
          have hBehind : storedNumber operating.execute.read (direction.order passed) =
              storedNumber start.read (direction.order passed) := by
            refine storedNumber_congr fun other hMem => ?_
            have hOther : other ≠ cell := fun h => hNew (h ▸ Direction.mem_order.mp hMem)
            rw [hKept other hOther, hRead]
          rw [hBehind, Bool.true_and] at hOthers
          refine ⟨hFirst.cons hOthers, fun address hAddress => ?_⟩
          obtain ⟨hOther, hOutside⟩ := not_or.mp (mt List.mem_cons.mpr hAddress)
          rw [hFrame address hOutside, hKept address hOther, hRead]

/-- Chains exist: where the code of the instructions lies in memory apart from their cells, execution
carries them out. -/
theorem exists_of_stored {moves : List BitMove}
    (hStored : readRun start.read start.registers.pc (moves.flatMap BitMove.code).length =
      moves.flatMap BitMove.code)
    (hApart : ∀ move ∈ moves,
      move.cell ∉ Address.run start.registers.pc (moves.flatMap BitMove.code).length) :
    ∃ finish, MoveChain start moves finish := by
  induction moves generalizing start with
  | nil => exact ⟨start, .done start⟩
  | cons move moves ih =>
      rw [List.flatMap_cons, List.length_append] at hStored hApart
      rw [readRun_add] at hStored
      obtain ⟨hCode, hLater⟩ := List.append_inj hStored (length_readRun ..)
      have isNext := BitMove.isNext_of_stored hCode
      have hPc := BitMove.pc_execute_of_stored hCode
      rw [← hPc] at hLater
      have hBehind : ∀ other ∈ move :: moves,
          other.cell ∉ Address.run start.execute.registers.pc (moves.flatMap BitMove.code).length := by
        intro other hOther hMem
        rw [hPc] at hMem
        exact hApart other hOther (Address.mem_run_add hMem)
      -- the code behind the instruction is not touched by it
      have hKept : AgreeOn
          (Address.run start.execute.registers.pc (moves.flatMap BitMove.code).length)
          start.execute.read start.read := by
        intro address hMem
        refine isNext.moves.2 address ?_
        rintro rfl
        exact hBehind move List.mem_cons_self hMem
      obtain ⟨finish, others⟩ := @ih start.execute (by rw [readRun_congr hKept, hLater])
        fun other hOther => hBehind other (List.mem_cons_of_mem _ hOther)
      exact ⟨finish, .move (.refl start) isNext others⟩

end MoveChain

namespace Direction

variable {modulus count before between after : Nat} {enters leaves : Bool}

/-- Without a bit that enters, a move upwards doubles a number, and the highest bit leaves it. -/
theorem Moves.up_eq (h : up.Moves (256 ^ count) before after false leaves) (hCount : 0 < count)
    (hBefore : before < 256 ^ count) (hAfter : after < 256 ^ count) :
    after = 2 * before % 256 ^ count ∧ leaves = before.testBit (8 * count - 1) := by
  have hPower : 256 ^ count = 2 * 2 ^ (8 * count - 1) := by
    rw [show 256 = 2 ^ 8 from rfl, ← pow_mul, ← pow_succ']
    congr 1
    omega
  simp only [Moves, Bool.toNat_false, Nat.add_zero] at h
  refine ⟨?_, ?_⟩
  · rw [← h, Nat.add_mul_mod_self_left, Nat.mod_eq_of_lt hAfter]
  · rw [hPower] at h hBefore hAfter
    rw [Nat.testBit_eq_decide_div_mod_eq]
    cases leaves with
    | false =>
        rw [Nat.div_eq_of_lt (by simp at h; omega)]
        rfl
    | true =>
        rw [Nat.div_eq_of_lt_le (k := 1) (by simp at h; omega) (by omega)]
        rfl

/-- Without a bit that enters, a move downwards halves a number, and the lowest bit leaves it. -/
theorem Moves.down_eq (h : down.Moves modulus before after false leaves) :
    after = before / 2 ∧ leaves = before.testBit 0 := by
  have hLeaves := leaves.toNat_le
  simp only [Moves, Bool.toNat_false, Nat.mul_zero, Nat.add_zero] at h
  refine ⟨by omega, ?_⟩
  rw [Nat.testBit_zero]
  cases leaves <;> simp at h ⊢ <;> omega

/-- A move downwards that lets in what has left upwards undoes the move. -/
theorem Moves.undone {leaves' : Bool} (up : up.Moves modulus before between enters leaves)
    (down : down.Moves modulus between after leaves leaves') : after = before ∧ leaves' = enters := by
  simp only [Moves] at up down
  rw [up] at down
  cases enters <;> cases leaves' <;> simp at down ⊢ <;> omega

end Direction

/-- A number lies in distinct cells, the lowest byte first. A shift of the lowest byte followed by rotations
of the higher ones doubles it, modulo what so many bytes hold, and the carry is its highest bit. A shift
of the highest byte followed by rotations of the lower ones halves it, and the carry is its lowest bit.
No other cell changes. Rotations of all bytes upwards and then downwards leave memory and the carry as
they were. -/
theorem multibyte_shifts_exact (cells : List Address) (hNonempty : cells ≠ []) (hDistinct : cells.Nodup)
    (start finish : Processor Ram) :
    (MoveChain start (Direction.up.pass false cells) finish →
      storedNumber finish.read cells = 2 * storedNumber start.read cells % 256 ^ cells.length ∧
      finish.registers.flags.carry =
        (storedNumber start.read cells).testBit (8 * cells.length - 1) ∧
      ∀ address ∉ cells, finish.read address = start.read address) ∧
    (MoveChain start (Direction.down.pass false cells.reverse) finish →
      storedNumber finish.read cells = storedNumber start.read cells / 2 ∧
      finish.registers.flags.carry = (storedNumber start.read cells).testBit 0 ∧
      ∀ address ∉ cells, finish.read address = start.read address) ∧
    (MoveChain start
        (Direction.up.pass true cells ++ Direction.down.pass true cells.reverse) finish →
      finish.bus = start.bus ∧
      finish.registers.flags.carry = start.registers.flags.carry) := by
  have hDistinct' : cells.reverse.Nodup := List.nodup_reverse.mpr hDistinct
  have hNonempty' : cells.reverse ≠ [] := List.reverse_ne_nil_iff.mpr hNonempty
  refine ⟨fun chain => ?_, fun chain => ?_, fun chain => ?_⟩
  · obtain ⟨hMoves, hFrame⟩ := chain.moves hDistinct (absurd · hNonempty)
    obtain ⟨hNumber, hCarry⟩ := hMoves.up_eq (List.length_pos_iff.mpr hNonempty)
      (storedNumber_lt ..) (storedNumber_lt ..)
    exact ⟨hNumber, hCarry, hFrame⟩
  · obtain ⟨hMoves, hFrame⟩ := chain.moves hDistinct' (absurd · hNonempty')
    rw [Direction.order, List.reverse_reverse] at hMoves
    obtain ⟨hNumber, hCarry⟩ := hMoves.down_eq
    exact ⟨hNumber, hCarry, fun address h => hFrame address (mt List.mem_reverse.mp h)⟩
  · obtain ⟨middle, up, down⟩ := chain.exists_of_append
    obtain ⟨hUp, hFrameUp⟩ := up.moves hDistinct fun _ => rfl
    obtain ⟨hDown, hFrameDown⟩ := down.moves hDistinct' fun _ => rfl
    rw [Direction.order, List.reverse_reverse, List.length_reverse, Bool.true_and] at hDown
    obtain ⟨hNumber, hCarry⟩ := hUp.undone hDown
    refine ⟨Ram.ext fun address => ?_, hCarry⟩
    by_cases hMem : address ∈ cells
    · exact read_eq_of_storedNumber_eq hNumber address hMem
    · exact (hFrameDown address (mt List.mem_reverse.mp hMem)).trans (hFrameUp address hMem)

/-- Three cells apart from one another. -/
def scatteredCells : List Address := [0x00FF, 0x2000, 0x0010]

/-- A processor that is about to carry out instructions on the number $81C001 in these cells. -/
def beforeMoves (moves : List BitMove) : Processor Ram where
  registers := Registers.powerOn 0x8000
  lines := .released
  jammed := false
  cycles := 0
  bus := (((Ram.zero.write 0x00FF 0x01).write 0x2000 0xC0).write 0x0010 0x81).writeRun 0x8000
    (moves.flatMap BitMove.code)

/-- A short program that lies apart from its cells is carried out. -/
theorem exists_chain_of_beforeMoves (moves : List BitMove)
    (hFits : (moves.flatMap BitMove.code).length ≤ 65536)
    (hApart : ∀ move ∈ moves,
      move.cell ∉ Address.run 0x8000 (moves.flatMap BitMove.code).length) :
    ∃ finish, MoveChain (beforeMoves moves) moves finish :=
  MoveChain.exists_of_stored (Ram.readRun_writeRun _ _ hFits) hApart

/-- Both of the end bits of $81C001 are set, so either shift leaves the carry set. -/
theorem multibyte_shifts_exact_of_scattered :
    (∃ finish, MoveChain (beforeMoves (Direction.up.pass false scatteredCells))
        (Direction.up.pass false scatteredCells) finish ∧
      storedNumber finish.read scatteredCells = 0x038002 ∧ finish.registers.flags.carry = true) ∧
    (∃ finish, MoveChain (beforeMoves (Direction.down.pass false scatteredCells.reverse))
        (Direction.down.pass false scatteredCells.reverse) finish ∧
      storedNumber finish.read scatteredCells = 0x40E000 ∧ finish.registers.flags.carry = true) ∧
    ∃ finish, MoveChain
        (beforeMoves (Direction.up.pass true scatteredCells ++
          Direction.down.pass true scatteredCells.reverse))
        (Direction.up.pass true scatteredCells ++ Direction.down.pass true scatteredCells.reverse)
        finish ∧
      storedNumber finish.read scatteredCells = 0x81C001 ∧
      finish.registers.flags.carry = false := by
  have hExact := multibyte_shifts_exact scatteredCells (by decide) (by decide)
  refine ⟨?_, ?_, ?_⟩
  · obtain ⟨finish, chain⟩ := exists_chain_of_beforeMoves (Direction.up.pass false scatteredCells)
      (by decide) (by decide)
    obtain ⟨hNumber, hCarry, _⟩ := (hExact _ finish).1 chain
    exact ⟨finish, chain, hNumber.trans (by decide +kernel), hCarry.trans (by decide +kernel)⟩
  · obtain ⟨finish, chain⟩ := exists_chain_of_beforeMoves
      (Direction.down.pass false scatteredCells.reverse) (by decide) (by decide)
    obtain ⟨hNumber, hCarry, _⟩ := (hExact _ finish).2.1 chain
    exact ⟨finish, chain, hNumber.trans (by decide +kernel), hCarry.trans (by decide +kernel)⟩
  · obtain ⟨finish, chain⟩ := exists_chain_of_beforeMoves
      (Direction.up.pass true scatteredCells ++ Direction.down.pass true scatteredCells.reverse)
      (by decide) (by decide)
    obtain ⟨hBus, hCarry⟩ := (hExact _ finish).2.2 chain
    have hRead : finish.read = _ := congrArg Ram.read hBus
    refine ⟨finish, chain, ?_, hCarry⟩
    rw [hRead]
    decide +kernel

end Mos6510
