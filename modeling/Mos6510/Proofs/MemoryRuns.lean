import Mos6510.Proofs.Locality

/-!
Runs of bytes in memory. After the last address comes the first one, so a run of up to 65536 bytes visits
no address twice. Main statements: a run splits like the list of its bytes, and a loaded image lies in
memory from where it was loaded.
-/

namespace Mos6510

namespace Address

/-- The addresses of a run go up one by one, past the last address too. -/
theorem add_ofNat_succ (address : Address) (index : Nat) :
    address + UInt16.ofNat (index + 1) = address + 1 + UInt16.ofNat index := by
  rw [Nat.add_comm, UInt16.ofNat_add, UInt16.add_assoc]
  rfl

/-- A run consists of the addresses at the offsets below its length. -/
theorem mem_run_iff {address first : Address} {length : Nat} :
    address ∈ run first length ↔ ∃ index < length, address = first + UInt16.ofNat index := by
  induction length generalizing first with
  | zero => simp [run]
  | succ length ih =>
      rw [run, List.mem_cons, ih]
      constructor
      · rintro (rfl | ⟨index, hIndex, rfl⟩)
        · exact ⟨0, length.succ_pos, (UInt16.add_zero _).symm⟩
        · exact ⟨index + 1, Nat.succ_lt_succ hIndex, (first.add_ofNat_succ index).symm⟩
      · rintro ⟨index, hIndex, rfl⟩
        cases index with
        | zero => exact .inl (UInt16.add_zero _)
        | succ index => exact .inr ⟨index, Nat.lt_of_succ_lt_succ hIndex, first.add_ofNat_succ index⟩

/-- The end of a run belongs to the run. -/
theorem mem_run_add {address start : Address} {first second : Nat}
    (h : address ∈ run (start + UInt16.ofNat first) second) : address ∈ run start (first + second) := by
  obtain ⟨index, hIndex, rfl⟩ := mem_run_iff.mp h
  refine mem_run_iff.mpr ⟨first + index, Nat.add_lt_add_left hIndex first, ?_⟩
  rw [UInt16.ofNat_add, UInt16.add_assoc]

/-- The addresses behind an address come back to it only after all others. -/
theorem not_mem_run_succ {address : Address} {length : Nat} (h : length < 65536) :
    address ∉ run (address + 1) length := by
  intro hMem
  obtain ⟨index, hIndex, hAddress⟩ := mem_run_iff.mp hMem
  have hBound := address.toNat_lt
  have hValue := congrArg UInt16.toNat hAddress
  rw [← add_ofNat_succ, UInt16.toNat_add, UInt16.toNat_ofNat'] at hValue
  omega

end Address

/-- A run that is read in two parts is read whole. -/
theorem readRun_add (read : Address → UInt8) (address : Address) (first second : Nat) :
    readRun read address (first + second) =
      readRun read address first ++ readRun read (address + UInt16.ofNat first) second := by
  induction first generalizing address with
  | zero =>
      rw [Nat.zero_add, show UInt16.ofNat 0 = 0 from rfl, UInt16.add_zero]
      rfl
  | succ first ih =>
      rw [Nat.succ_add, readRun, readRun, ih, List.cons_append, address.add_ofNat_succ]

theorem readRun_congr {first second : Address → UInt8} {address : Address} {length : Nat}
    (h : AgreeOn (Address.run address length) first second) :
    readRun first address length = readRun second address length := by
  induction length generalizing address with
  | zero => rfl
  | succ length ih =>
      obtain ⟨hFirst, hRest⟩ := agreeOn_cons.mp h
      rw [readRun, readRun, hFirst, ih hRest]

/-- Of bytes that lie in memory one after another, those in the middle lie behind those before them. -/
theorem readRun_of_append {read : Address → UInt8} {start : Address} {before middle after : List UInt8}
    (h : readRun read start (before ++ (middle ++ after)).length = before ++ (middle ++ after)) :
    readRun read (start + UInt16.ofNat before.length) middle.length = middle := by
  rw [List.length_append, List.length_append, readRun_add, readRun_add] at h
  have hRest := (List.append_inj h (length_readRun _ _ _)).2
  exact (List.append_inj hRest (length_readRun _ _ _)).1

namespace Ram

/-- Outside of a run its image is not seen. -/
theorem read_writeRun_of_not_mem (ram : Ram) {start address : Address} {image : List UInt8}
    (h : address ∉ Address.run start image.length) :
    (ram.writeRun start image).read address = ram.read address := by
  induction image generalizing ram start with
  | nil => rfl
  | cons value rest ih =>
      rw [List.length_cons, Address.run, List.mem_cons, not_or] at h
      rw [writeRun, ih _ h.2, read_write_of_ne _ _ h.1]

/-- An image that is not longer than the memory is read back as it was written. A longer one would
overwrite its own beginning. -/
theorem readRun_writeRun (ram : Ram) (start : Address) {image : List UInt8}
    (h : image.length ≤ 65536) :
    readRun (ram.writeRun start image).read start image.length = image := by
  induction image generalizing ram start with
  | nil => rfl
  | cons value rest ih =>
      have hRest : rest.length < 65536 := h
      rw [List.length_cons, readRun, writeRun,
        read_writeRun_of_not_mem _ (Address.not_mem_run_succ hRest), read_write_self,
        ih _ _ (Nat.le_of_lt hRest)]

/-- An image is loaded exactly if it does not go past the last address. -/
theorem load_eq_ok_iff {ram loaded : Ram} {start : Address} {image : List UInt8} :
    ram.load start image = .ok loaded ↔
      start.toNat + image.length ≤ 65536 ∧ loaded = ram.writeRun start image := by
  unfold load
  split
  · next hLong => exact iff_of_false (fun h => by cases h) fun h => absurd h.1 (by omega)
  · next hFits =>
    rw [Except.ok.injEq, eq_comm]
    exact ⟨fun h => ⟨by omega, h⟩, fun h => h.2⟩

/-- A loaded image lies in memory. -/
theorem readRun_of_load {ram loaded : Ram} {start : Address} {image : List UInt8}
    (h : ram.load start image = .ok loaded) :
    readRun loaded.read start image.length = image := by
  obtain ⟨hFits, rfl⟩ := load_eq_ok_iff.mp h
  exact ram.readRun_writeRun start (by omega)

end Ram

/-- A step that does not write to a run of bytes keeps it. -/
theorem Processor.readRun_step {processor : Processor Ram} {start : Address} {length : Nat}
    (h : ∀ w ∈ processor.footprint, w.address ∉ Address.run start length) :
    readRun processor.step.read start length = readRun processor.read start length := by
  refine readRun_congr fun address hMem => ?_
  rw [read, bus_step]
  refine Ram.read_writeAll_of_forall_ne fun w hWrite => ?_
  rintro rfl
  exact h w hWrite hMem

end Mos6510
