import Mos6510.Monitor
import Mos6510.Proofs.MemoryRuns

/-!
Memory holds what was stored last. A host loads images, sets vectors and writes single bytes, in any
order; images may overlap, be empty or end at the last address, a vector may straddle the end of the
space, and an image that does not fit is refused. Main statement: after any commands every byte is the
one that the last command with a byte for that address stored there, or zero, and a refused image leaves
no trace.
-/

namespace Mos6510

/-- A run is read address by address, and past the last address it goes on with the first one. -/
theorem getElem_readRun (read : Address → UInt8) (start : Address) {length index : Nat}
    (h : index < (readRun read start length).length) :
    (readRun read start length)[index] = read (start + UInt16.ofNat index) := by
  induction length generalizing start index with
  | zero => simp at h
  | succ length ih =>
      cases index with
      | zero => simp [readRun]
      | succ index =>
          simp only [readRun, List.getElem_cons_succ, ih, start.add_ofNat_succ]

namespace Address

theorem add_one_ne (address : Address) : address + 1 ≠ address := by
  intro h
  have hBound := address.toNat_lt
  have hValue := congrArg UInt16.toNat h
  rw [UInt16.toNat_add, show (1 : UInt16).toNat = 1 from rfl] at hValue
  omega

/-- Addresses that do not pass the last one are those from the start on, up to their number. -/
theorem mem_run_iff_of_fits {start address : Address} {length : Nat}
    (hFits : start.toNat + length ≤ 65536) :
    address ∈ run start length ↔
      start.toNat ≤ address.toNat ∧ address.toNat < start.toNat + length := by
  have hBound := address.toNat_lt
  rw [mem_run_iff]
  constructor
  · rintro ⟨index, hIndex, rfl⟩
    rw [UInt16.toNat_add, UInt16.toNat_ofNat']
    omega
  · rintro ⟨hFrom, hBelow⟩
    refine ⟨address.toNat - start.toNat, by omega, ext ?_⟩
    rw [UInt16.toNat_add, UInt16.toNat_ofNat']
    omega

end Address

namespace Ram

variable (ram : Ram)

/-- Within an image that has been written there is the image, beyond it what was there before. -/
theorem read_writeRun_add (start : Address) {image : List UInt8} {index : Nat}
    (hLength : image.length ≤ 65536) (hIndex : index < image.length) :
    (ram.writeRun start image).read (start + UInt16.ofNat index) = image[index] := by
  have hRun := ram.readRun_writeRun start hLength
  have hCell := getElem_readRun (ram.writeRun start image).read start (hRun ▸ hIndex)
  simpa only [hRun] using hCell.symm

/-- A vector takes its own address and the next one, also where that wraps around. -/
theorem read_setVector (vector target address : Address) :
    (ram.setVector vector target).read address =
      if address = vector then target.low
      else if address = vector + 1 then target.page
      else ram.read address := by
  have hNext := vector.add_one_ne
  by_cases hVector : address = vector
  · subst hVector
    simp [setVector, read_write, hNext.symm]
  · simp [setVector, read_write, hVector]

end Ram

namespace Monitor.MemoryCommand

/-- The byte that a command stores at an address, if it stores one there. A load stores its image if that
fits behind its start, and else nothing. -/
def stored? (command : MemoryCommand) (address : Address) : Option UInt8 :=
  match command with
  | .load start image =>
    if start.toNat + image.length ≤ 65536 ∧ start.toNat ≤ address.toNat then
      image[address.toNat - start.toNat]?
    else none
  | .setVector vector target =>
    if address = vector then some target.low
    else if address = vector + 1 then some target.page
    else none
  | .poke cell value => if address = cell then some value else none
  | .read _ _ => none
  | .nonzero _ _ => none

/-- The byte that the last of some commands to store one at an address stored there. -/
def lastStored? (commands : List MemoryCommand) (address : Address) : Option UInt8 :=
  commands.reverse.findSome? fun command => command.stored? address

/-- Memory after commands have been carried out on it, one after another. -/
def memoryAfter (commands : List MemoryCommand) (ram : Ram) : Ram :=
  commands.foldl (fun ram command => (command.run ram).2) ram

variable (ram : Ram)

/-- An image that ends at the last address or before it is loaded. -/
theorem run_load_of_fits {start : Address} {image : List UInt8}
    (hFits : start.toNat + image.length ≤ 65536) :
    (load start image).run ram = (.ok, ram.writeRun start image) := by
  have hLoad := Ram.load_eq_ok_iff.mpr ⟨hFits, (rfl : ram.writeRun start image = _)⟩
  simp only [run, hLoad]

/-- A longer one is refused, and nothing of it is stored. -/
theorem run_load_of_not_fits {start : Address} {image : List UInt8}
    (hLong : 65536 < start.toNat + image.length) :
    (load start image).run ram = (.refused ⟨start, image.length⟩, ram) := by
  simp only [run, Ram.load, if_pos hLong]

/-- A command stores its bytes and leaves all others as they were. -/
theorem read_run (command : MemoryCommand) (address : Address) :
    (command.run ram).2.read address = (command.stored? address).getD (ram.read address) := by
  cases command with
  | load start image =>
      by_cases hFits : start.toNat + image.length ≤ 65536
      · rw [run_load_of_fits ram hFits]
        by_cases hMem : address ∈ Address.run start image.length
        · obtain ⟨index, hIndex, rfl⟩ := Address.mem_run_iff.mp hMem
          have hNat : (start + UInt16.ofNat index).toNat = start.toNat + index := by
            rw [UInt16.toNat_add, UInt16.toNat_ofNat']
            omega
          rw [ram.read_writeRun_add start (by omega) hIndex]
          simp [stored?, hFits, hNat, hIndex]
        · rw [ram.read_writeRun_of_not_mem hMem]
          rw [Address.mem_run_iff_of_fits hFits] at hMem
          by_cases hFrom : start.toNat ≤ address.toNat
          · have hBeyond : image.length ≤ address.toNat - start.toNat := by omega
            simp [stored?, hFrom, hBeyond]
          · simp [stored?, hFrom]
      · rw [run_load_of_not_fits ram (Nat.lt_of_not_le hFits)]
        simp [stored?, hFits]
  | setVector vector target =>
      rw [run, Ram.read_setVector, stored?]
      split
      · rfl
      · split <;> rfl
  | poke cell value =>
      rw [run, Ram.read_write, stored?]
      split <;> rfl
  | read _ _ => rfl
  | nonzero _ _ => rfl

/-- Every byte is the one stored there last, or what was there before. -/
theorem read_memoryAfter (commands : List MemoryCommand) (address : Address) :
    (memoryAfter commands ram).read address =
      (lastStored? commands address).getD (ram.read address) := by
  induction commands generalizing ram with
  | nil => rfl
  | cons command commands ih =>
      have hAfter : memoryAfter (command :: commands) ram =
          memoryAfter commands (command.run ram).2 := rfl
      rw [hAfter, ih, read_run, lastStored?, lastStored?, List.reverse_cons, List.findSome?_append]
      cases commands.reverse.findSome? fun command => command.stored? address with
      | some value => rfl
      | none => simp

/-- The last store is the one behind which nothing else is stored at that address. -/
theorem lastStored?_eq_some_iff {commands : List MemoryCommand} {address : Address} {value : UInt8} :
    lastStored? commands address = some value ↔
      ∃ earlier command later, commands = earlier ++ command :: later ∧
        command.stored? address = some value ∧ ∀ other ∈ later, other.stored? address = none := by
  rw [lastStored?, List.findSome?_eq_some_iff]
  constructor
  · rintro ⟨later, command, earlier, hCommands, hStored, hLater⟩
    refine ⟨earlier.reverse, command, later.reverse, ?_, hStored, by simpa using hLater⟩
    simpa using congrArg List.reverse hCommands
  · rintro ⟨earlier, command, later, rfl, hStored, hLater⟩
    exact ⟨later.reverse, command, earlier.reverse, by simp, hStored, by simpa using hLater⟩

theorem lastStored?_eq_none_iff {commands : List MemoryCommand} {address : Address} :
    lastStored? commands address = none ↔ ∀ command ∈ commands, command.stored? address = none := by
  simp [lastStored?]

/-- Memory that starts out as zeros holds at every address the byte that the last command with one for it
stored there, and zero if there was none. A load is refused exactly if its image would run past the last
address, and then it changes no byte; otherwise it changes those from its start up to its length and no
others. A vector goes to two addresses, low byte first, and the second may be the first of all. -/
theorem memory_lastStored (commands : List MemoryCommand) :
    (∀ address,
      (∀ value, lastStored? commands address = some value ↔
        ∃ earlier command later, commands = earlier ++ command :: later ∧
          command.stored? address = some value ∧ ∀ other ∈ later, other.stored? address = none) ∧
      (lastStored? commands address = none ↔
        ∀ command ∈ commands, command.stored? address = none) ∧
      (memoryAfter commands Ram.zero).read address = (lastStored? commands address).getD 0) ∧
    (∀ (ram : Ram) (start : Address) (image : List UInt8),
      let outcome := (load start image).run ram
      if 65536 < start.toNat + image.length then
        outcome.1 = .refused ⟨start, image.length⟩ ∧ outcome.2 = ram
      else
        outcome.1 = .ok ∧
        (∀ index (h : index < image.length),
          outcome.2.read (start + UInt16.ofNat index) = image[index]) ∧
        ∀ address : Address,
          address.toNat < start.toNat ∨ start.toNat + image.length ≤ address.toNat →
            outcome.2.read address = ram.read address) ∧
    ∀ (ram : Ram) (vector target : Address),
      let outcome := (setVector vector target).run ram
      outcome.1 = .ok ∧
      outcome.2.read vector = target.low ∧ outcome.2.read (vector + 1) = target.page ∧
      ∀ address, address ≠ vector → address ≠ vector + 1 →
        outcome.2.read address = ram.read address := by
  refine ⟨fun address => ⟨fun value => lastStored?_eq_some_iff, lastStored?_eq_none_iff, ?_⟩,
    fun ram start image => ?_, fun ram vector target => ?_⟩
  · rw [read_memoryAfter, Ram.read_zero]
  · by_cases hLong : 65536 < start.toNat + image.length
    · simp only [run_load_of_not_fits ram hLong, if_pos hLong, true_and]
    · have hFits : start.toNat + image.length ≤ 65536 := Nat.le_of_not_lt hLong
      simp only [run_load_of_fits ram hFits, if_neg hLong, true_and]
      refine ⟨fun index hIndex => ram.read_writeRun_add start (by omega) hIndex,
        fun address hBeyond => ram.read_writeRun_of_not_mem ?_⟩
      rw [Address.mem_run_iff_of_fits hFits]
      omega
  · have hNext := vector.add_one_ne
    simp +contextual [run, Ram.read_setVector, hNext]

/-- Two images overlap, a third one is too long by one byte, and a vector straddles the end of the
space. -/
example :
    [0x0011, 0x0012, 0xFFFF, 0x0000].map
      (memoryAfter [.load 0x0010 [1, 2, 3], .load 0x0012 [4], .poke 0xFFFF 5, .load 0xFFFF [6, 7],
        .setVector 0xFFFF 0x1234] Ram.zero).read = [2, 4, 0x34, 0x12] := by
  decide

end Monitor.MemoryCommand

end Mos6510
