import Mos6510.Proofs.LosslessListing
import Mos6510.Proofs.MemoryRuns
import Mos6510.Proofs.StepSequence

/-!
Listings and processors read machine code alike. A listing splits an image by the lengths of its
instructions, and a processor goes from one instruction to the next by the same lengths, as long as the
instructions do not say themselves where execution goes on. Main statement: if an image lies in memory
and is not written to, then the steps from its beginning carry out the records of its listing, one after
another, each for the cycles of its record or one more.
-/

namespace Mos6510

namespace Record

/-- A record is an instruction that leaves it to its length where execution goes on. -/
def IsSequential (record : Record) : Prop :=
  record.isData = false ∧ (Opcode.ofByte record.opcode).mnemonic.isControlFlow = false

instance (record : Record) : Decidable record.IsSequential :=
  inferInstanceAs (Decidable (_ ∧ _))

end Record

/-- A record stands where the bytes of the records before it end, and covers the next bytes. -/
theorem exists_tail_of_record {undocumented : Bool} {bytes : List UInt8} {start : Address}
    {earlier later : List Record} {record : Record}
    (h : listing undocumented bytes start = earlier ++ record :: later) :
    record.address = start + UInt16.ofNat (earlier.flatMap Record.bytes).length ∧
      record.bytes.length = record.size ∧
      ∃ tail, bytes = earlier.flatMap Record.bytes ++ (record.bytes ++ tail) := by
  obtain ⟨rest, hBytes, hHead, _⟩ := exists_rest_of_listing_eq h
  have hAddress := Record.address_head undocumented record.opcode rest
    (start + UInt16.ofNat (earlier.flatMap Record.bytes).length)
  have hLength := Record.length_bytes_head undocumented record.opcode rest
    (start + UInt16.ofNat (earlier.flatMap Record.bytes).length)
  have hSplit := Record.bytes_head_append undocumented record.opcode rest
    (start + UInt16.ofNat (earlier.flatMap Record.bytes).length)
  rw [← hHead] at hAddress hLength hSplit
  exact ⟨hAddress, hLength, _, hSplit ▸ hBytes⟩

theorem tabled_of_record {undocumented : Bool} {bytes : List UInt8} {start : Address}
    {earlier later : List Record} {record : Record}
    (h : listing undocumented bytes start = earlier ++ record :: later)
    (hCode : record.isData = false) : record.Tabled := by
  obtain ⟨rest, _, hHead, _⟩ := exists_rest_of_listing_eq h
  rw [hHead] at hCode ⊢
  exact Record.tabled_head_of_isData_eq_false _ _ _ _ hCode

/-- Apart from branches an instruction takes at most one cycle beyond the fixed part of its
opcode. -/
theorem Opcode.surcharge_le_one {opcode : Opcode} (read : Address → UInt8) (r : Registers)
    (h : opcode.mnemonic.isControlFlow = false) : opcode.surcharge read r ≤ 1 := by
  unfold surcharge
  cases hTaken : opcode.mnemonic.taken? r.flags with
  | some taken =>
      obtain ⟨condition, hAction, _⟩ := Mnemonic.action_of_taken? hTaken
      rw [Mnemonic.isControlFlow, hAction] at h
      cases h
  | none => dsimp only; split <;> decide

namespace Processor

variable {β : Type} [Bus β] {processor : Processor β} {record : Record}

theorem pendingInterrupt_eq_none (hNmi : processor.lines.nmiPending = false)
    (hIrq : processor.irqAsserted = false) : processor.pendingInterrupt = none := by
  simp [pendingInterrupt, hNmi, hIrq]

/-- Where the bytes of an instruction lie, its opcode is found. -/
theorem opcodeByte_of_tabled (tabled : record.Tabled)
    (hPc : processor.registers.pc = record.address)
    (hBytes : readRun processor.read record.address record.size = record.opcode :: record.operand) :
    processor.opcodeByte = record.opcode := by
  rw [tabled.size_eq, Nat.add_comm, readRun, ← hPc] at hBytes
  exact (List.cons_eq_cons.mp hBytes).1

/-- An instruction that stands in memory as its record has it leads to the next record, in the
cycles of the record or one more. -/
theorem execute_of_tabled (tabled : record.Tabled) (hCode : record.IsSequential)
    (hPc : processor.registers.pc = record.address)
    (hBytes : readRun processor.read record.address record.size = record.opcode :: record.operand) :
    processor.execute.registers.pc = record.address + UInt16.ofNat record.size ∧
      (processor.cost = record.cycles ∨ processor.cost = record.cycles + 1) := by
  have hOpcode : processor.opcode = Opcode.ofByte record.opcode :=
    congrArg Opcode.ofByte (opcodeByte_of_tabled tabled hPc hBytes)
  have hFlow : processor.opcode.mnemonic.isControlFlow = false := hOpcode ▸ hCode.2
  have hSurcharge := Opcode.surcharge_le_one processor.read processor.registers hFlow
  refine ⟨?_, ?_⟩
  · rw [pc_execute_of_sequential hFlow, hPc, hOpcode, tabled.size]
  · rw [cost_eq, hOpcode, tabled.cycles] at *
    omega

end Processor

/-- A processor follows a listing: nothing is there to be serviced, the listed bytes lie in memory, and
execution stands behind the records that have been carried out. -/
structure Follows (image : List UInt8) (start : Address) (done : List Record)
    (processor : Processor Ram) : Prop where
  nmiPending : processor.lines.nmiPending = false
  irqAsserted : processor.irqAsserted = false
  stored : readRun processor.read start image.length = image
  pc : processor.registers.pc = start + UInt16.ofNat (done.flatMap Record.bytes).length

namespace Follows

variable {image : List UInt8} {start : Address} {done later : List Record} {record : Record}
  {processor : Processor Ram}

theorem pending (follows : Follows image start done processor) :
    processor.pendingInterrupt = none :=
  Processor.pendingInterrupt_eq_none follows.nmiPending follows.irqAsserted

/-- The next record is the instruction that is about to be carried out. -/
theorem next (follows : Follows image start done processor)
    (hListing : listing true image start = done ++ record :: later) :
    processor.registers.pc = record.address ∧
      readRun processor.read record.address record.size = record.bytes := by
  obtain ⟨hAddress, hSize, tail, hImage⟩ := exists_tail_of_record hListing
  have hStored := follows.stored
  rw [hImage] at hStored
  refine ⟨follows.pc.trans hAddress.symm, ?_⟩
  rw [hAddress, ← hSize]
  exact readRun_of_append hStored

/-- A step that does not write to the image carries out the next record. -/
theorem step (follows : Follows image start done processor)
    (hListing : listing true image start = done ++ record :: later) (hCode : record.IsSequential)
    (hWrites : ∀ w ∈ processor.footprint, w.address ∉ Address.run start image.length) :
    Follows image start (done ++ [record]) processor.step ∧
      processor.step.registers.pc = record.address + UInt16.ofNat record.size ∧
      (processor.stepCost = record.cycles ∨ processor.stepCost = record.cycles + 1) := by
  have tabled := tabled_of_record hListing hCode.1
  obtain ⟨hAddress, hSize, _⟩ := exists_tail_of_record hListing
  obtain ⟨hPc, hBytes⟩ := follows.next hListing
  rw [tabled.bytes_eq] at hBytes
  obtain ⟨hNext, hCost⟩ := Processor.execute_of_tabled tabled hCode hPc hBytes
  have hStep : processor.step = processor.execute := by
    simp only [Processor.step, follows.pending]
  have hStepCost : processor.stepCost = processor.cost := by
    simp only [Processor.stepCost, follows.pending]
  rw [hStepCost]
  refine ⟨⟨?_, ?_, ?_, ?_⟩, by rw [hStep, hNext], hCost⟩
  · rw [hStep]
    exact follows.nmiPending
  · rw [hStep]
    exact follows.irqAsserted
  · rw [Processor.readRun_step hWrites, follows.stored]
  · rw [hStep, hNext, hAddress, List.flatMap_append, List.flatMap_singleton, List.length_append,
      hSize, UInt16.ofNat_add, UInt16.add_assoc]

end Follows

/-- A record that is among the first ones splits the others into those before it and those behind it. -/
theorem exists_split_of_lt {records : List Record} {count index : Nat} (hCount : count ≤ records.length)
    (hIndex : index < count) :
    ∃ record ∈ records.take count, records[index]? = some record ∧
      records.take (index + 1) = records.take index ++ [record] ∧
      records = records.take index ++ record :: records.drop (index + 1) := by
  have hBound : index < records.length := Nat.lt_of_lt_of_le hIndex hCount
  have hRecord := List.getElem?_eq_getElem hBound
  refine ⟨records[index], List.mem_take_iff_getElem.mpr ⟨index, by omega, rfl⟩, hRecord, ?_, ?_⟩
  · rw [List.take_add_one, hRecord, Option.toList_some]
  · rw [List.getElem_cons_drop, List.take_append_drop]

namespace Machine

variable {ν : Type} {machine : Machine Ram ν} {ram : Ram} {image : List UInt8} {start : Address}
  {count : Nat}

/-- As long as no step writes to the image, every step carries out the next record. -/
theorem follows_iterate (follows : Follows image start [] machine.processor)
    (hCount : count ≤ (listing true image start).length)
    (hCode : ∀ record ∈ (listing true image start).take count, record.IsSequential)
    (hWrites : ∀ index < count, ∀ w ∈ (Machine.advance^[index] machine).processor.footprint,
      w.address ∉ Address.run start image.length) {index : Nat} (hIndex : index ≤ count) :
    Follows image start ((listing true image start).take index)
      (Machine.advance^[index] machine).processor := by
  induction index with
  | zero => exact follows
  | succ index ih =>
      obtain ⟨record, hMem, _, hTake, hListing⟩ := exists_split_of_lt hCount hIndex
      have hDone := ih (Nat.le_of_lt hIndex)
      rw [Function.iterate_succ_apply', processor_advance, hTake]
      exact (hDone.step hListing (hCode record hMem) (hWrites index hIndex)).1

/-- A machine without traps and without anything to service carries out the listing of an image that is
in memory from where execution stands, for as many records as are instructions without a destination of
their own, if none of the steps writes to the image. Before each step the program counter is the address
of the record, the bytes there are those of the record, the step costs the cycles of the record or one
more, and after it the program counter is the address behind the record. -/
theorem listing_carried_out (hLoad : ram.load start image = .ok machine.processor.bus)
    (hStart : machine.processor.registers.pc = start) (trapless : machine.Trapless)
    (hNmi : machine.processor.lines.nmiPending = false)
    (hIrq : machine.processor.irqAsserted = false)
    (hCount : count ≤ (listing true image start).length)
    (hCode : ∀ record ∈ (listing true image start).take count, record.IsSequential)
    (hWrites : ∀ index < count, ∀ w ∈ (Machine.advance^[index] machine).processor.footprint,
      w.address ∉ Address.run start image.length) :
    ∀ index < count, ∃ record cost, (listing true image start)[index]? = some record ∧
      (Machine.advance^[index] machine).processor.registers.pc = record.address ∧
      readRun (Machine.advance^[index] machine).processor.read record.address record.size =
        record.opcode :: record.operand ∧
      (∀ run, (Machine.advance^[index] machine).step run =
        some (cost, Machine.advance^[index + 1] machine)) ∧
      (cost = record.cycles ∨ cost = record.cycles + 1) ∧
      (Machine.advance^[index + 1] machine).processor.registers.pc =
        record.address + UInt16.ofNat record.size := by
  intro index hIndex
  have follows : Follows image start [] machine.processor :=
    ⟨hNmi, hIrq, Ram.readRun_of_load hLoad, hStart.trans (UInt16.add_zero _).symm⟩
  have hThere := follows_iterate follows hCount hCode hWrites (Nat.le_of_lt hIndex)
  obtain ⟨record, hMem, hRecord, _, hListing⟩ := exists_split_of_lt hCount hIndex
  have hSequential := hCode record hMem
  obtain ⟨hPc, hBytes⟩ := hThere.next hListing
  obtain ⟨_, hNext, hCost⟩ := hThere.step hListing hSequential (hWrites index hIndex)
  rw [(tabled_of_record hListing hSequential.1).bytes_eq] at hBytes
  refine ⟨record, _, hRecord, hPc, hBytes, fun run => ?_, hCost, ?_⟩
  · rw [step_of_untrapped (trapless.iterate index).untrapped, Function.iterate_succ_apply']
  · rw [Function.iterate_succ_apply', processor_advance, hNext]

/-- An undocumented load of `x`, an indexed load and an indexed store, up to the last address. -/
def lastInstructions : List UInt8 := [0xA7, 0x10, 0xBD, 0xFF, 0x80, 0x9D, 0x00, 0x02]

def beforeLastInstructions : Machine Ram Empty :=
  (powerOn {} ((Ram.zero.write 0x0010 0x01).writeRun 0xFFF8 lastInstructions)).change
    (.registers fun registers => { registers with pc := 0xFFF8 })

/-- The second load takes a cycle more than its record says, because its index carries, and behind the
store comes the first address. -/
theorem listing_carried_out_of_wrapping :
    (Ram.zero.write 0x0010 0x01).load 0xFFF8 lastInstructions =
      .ok beforeLastInstructions.processor.bus ∧
    (listing true lastInstructions 0xFFF8).map Record.size = [2, 3, 3] ∧
    (∀ run, (Machine.advance^[1] beforeLastInstructions).step run =
      some (5, Machine.advance^[2] beforeLastInstructions)) ∧
    (Machine.advance^[3] beforeLastInstructions).processor.registers.pc = 0x0000 := by
  have hLoad : (Ram.zero.write 0x0010 0x01).load 0xFFF8 lastInstructions =
      .ok beforeLastInstructions.processor.bus := rfl
  have hSteps := listing_carried_out hLoad rfl (fun _ => rfl) rfl rfl
    (show 3 ≤ (listing true lastInstructions 0xFFF8).length by decide)
    (by decide +kernel) (by decide +kernel)
  obtain ⟨_, _, hSecond, _, _, hStep, _⟩ := hSteps 1 (by decide)
  obtain ⟨_, _, hThird, _, _, _, _, hPc⟩ := hSteps 2 (by decide)
  cases hThird
  refine ⟨hLoad, by decide +kernel, fun run => ?_, hPc⟩
  have hCost := hStep (run? 0)
  cases hCost
  exact hStep run

end Machine

end Mos6510
