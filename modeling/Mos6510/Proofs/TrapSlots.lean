import Mos6510.TrapTable
import Mathlib.Data.List.Nodup

/-!
The laws of trap tables. Every operation is described by what it does to the slot of each address,
so that later arguments never look at the list behind a table. A table is sound when no address has
two slots and there are no more slots than its capacity; all operations keep a table sound.
-/

namespace Mos6510.TrapTable

variable {η : Type}

theorem contains_iff_mem_addresses (table : TrapTable η) (address : Address) :
    table.contains address = true ↔ address ∈ table.addresses := by
  simp [contains, addresses]

/-- There is no slot for an address that the table does not have. -/
theorem slot?_eq_none_iff {table : TrapTable η} {address : Address} :
    table.slot? address = none ↔ address ∉ table.addresses := by
  simp only [slot?, addresses, Option.map_eq_none_iff, List.find?_eq_none, beq_iff_eq, List.mem_map,
    not_exists, not_and]

/-- There is a slot exactly for the addresses that the table contains. -/
theorem contains_eq_isSome_slot? (table : TrapTable η) (address : Address) :
    table.contains address = (table.slot? address).isSome := by
  rw [Bool.eq_iff_iff, contains_iff_mem_addresses, Option.isSome_iff_ne_none, ne_eq,
    slot?_eq_none_iff, not_not]

/-- To fill a slot or to empty it changes no other, and makes none where there is none. -/
theorem slot?_setSlot (table : TrapTable η) (address other : Address) (content : Option η) :
    (table.setSlot address content).slot? other =
      if other = address then (table.slot? address).map fun _ => content else table.slot? other := by
  have hSame (slot : Address × Option η) :
      (if slot.1 == address then (address, content) else slot).1 = slot.1 := by
    split
    · next h => exact (beq_iff_eq.mp h).symm
    · rfl
  unfold slot? setSlot
  rw [List.find?_map]
  simp only [Function.comp_def, hSame, Option.map_map]
  split
  · next h =>
    subst h
    apply Option.map_congr
    intro slot hFound
    rw [if_pos (by simpa using List.find?_some hFound)]
  · next h =>
    apply Option.map_congr
    intro slot hFound
    have hAddress : slot.1 = other := by simpa using List.find?_some hFound
    rw [if_neg (by simpa [hAddress] using h)]

theorem slot?_remove (table : TrapTable η) (address other : Address) :
    (table.remove address).slot? other = if other = address then none else table.slot? other := by
  unfold slot? remove
  rw [List.find?_filter]
  split
  · next h =>
    subst h
    simp
  · next h =>
    congr 2
    funext slot
    by_cases hOther : slot.1 = other <;> simp_all

/-- A handler can be registered at an address that is there already and else while there is room. -/
theorem register?_eq_some_iff {table after : TrapTable η} {address : Address} {handler : η} :
    table.register? address handler = some after ↔
      (address ∈ table.addresses ∧ after = table.setSlot address (some handler)) ∨
      (address ∉ table.addresses ∧ table.size < table.capacity ∧
        after = { table with slots := table.slots ++ [(address, some handler)] }) := by
  rw [register?, ← contains_iff_mem_addresses]
  by_cases hContains : table.contains address
  · simp [hContains, eq_comm]
  · by_cases hFull : table.capacity ≤ table.size
    · simp [hContains, hFull, Nat.not_lt.mpr hFull]
    · simp [hContains, hFull, Nat.not_le.mp hFull, eq_comm]

/-- After a registration that is accepted the handler waits at its address, and all other slots are
as before. -/
theorem slot?_of_register? {table after : TrapTable η} {address : Address} {handler : η}
    (h : table.register? address handler = some after) (other : Address) :
    after.slot? other = if other = address then some (some handler) else table.slot? other := by
  rcases register?_eq_some_iff.mp h with ⟨hMem, rfl⟩ | ⟨hNew, _, rfl⟩
  · rw [slot?_setSlot]
    split
    · have hSlot : table.slot? address ≠ none := fun hNone => slot?_eq_none_iff.mp hNone hMem
      obtain ⟨content, hContent⟩ := Option.ne_none_iff_exists'.mp hSlot
      rw [hContent, Option.map_some]
    · rfl
  · have hNone := slot?_eq_none_iff.mpr hNew
    unfold slot? at hNone ⊢
    rw [List.find?_append]
    split
    · next hEq =>
      subst hEq
      rw [Option.map_eq_none_iff.mp hNone]
      simp
    · next hNe =>
      simp [Ne.symm hNe]

/-- What can be taken is the handler in the slot, and the slot stays behind empty. -/
theorem take?_eq_some_iff {table after : TrapTable η} {address : Address} {handler : η} :
    table.take? address = some (handler, after) ↔
      table.slot? address = some (some handler) ∧ after = table.setSlot address none := by
  rw [take?, Option.map_eq_some_iff, handler?]
  constructor
  · rintro ⟨found, hFound, hTaken⟩
    cases hTaken
    exact ⟨Option.join_eq_some_iff.mp hFound, rfl⟩
  · rintro ⟨hSlot, rfl⟩
    exact ⟨handler, Option.join_eq_some_iff.mpr hSlot, rfl⟩

/-- Restoring fills an empty slot and nothing else. -/
theorem slot?_restore (table : TrapTable η) (address other : Address) (handler : η) :
    (table.restore address handler).slot? other =
      if other = address then (table.slot? address).map fun content => some (content.getD handler)
      else table.slot? other := by
  unfold restore
  split
  · next hEmpty => rw [slot?_setSlot, hEmpty]; rfl
  · next hFull =>
    split
    · next hEq =>
      subst hEq
      cases hSlot : table.slot? other with
      | none => rfl
      | some content =>
          cases content with
          | none => exact (hFull hSlot).elim
          | some newer => rfl
    · rfl

/-- Every handler that waits in a table, at whatever address, has a property. -/
def Every (property : η → Prop) (table : TrapTable η) : Prop :=
  ∀ slot ∈ table.slots, ∀ handler, slot.2 = some handler → property handler

namespace Every

variable {property : η → Prop} {table after : TrapTable η} {address : Address} {handler : η}

theorem of_slot? (every : table.Every property) (h : table.slot? address = some (some handler)) :
    property handler := by
  obtain ⟨slot, hFound, hContent⟩ := Option.map_eq_some_iff.mp h
  exact every slot (List.mem_of_find?_eq_some hFound) handler hContent

theorem setSlot (every : table.Every property) (address : Address) {content : Option η}
    (h : ∀ handler, content = some handler → property handler) :
    (table.setSlot address content).Every property := by
  intro slot hSlot handler hHandler
  obtain ⟨old, hOld, rfl⟩ := List.mem_map.mp hSlot
  split at hHandler
  · exact h handler hHandler
  · exact every old hOld handler hHandler

theorem register? (every : table.Every property) (hHandler : property handler)
    (h : table.register? address handler = some after) : after.Every property := by
  rcases register?_eq_some_iff.mp h with ⟨_, rfl⟩ | ⟨_, _, rfl⟩
  · refine every.setSlot address fun other hOther => ?_
    cases hOther
    exact hHandler
  · intro slot hSlot other hOther
    rcases List.mem_append.mp hSlot with hOld | hNew
    · exact every slot hOld other hOther
    · cases List.mem_singleton.mp hNew
      cases hOther
      exact hHandler

theorem remove (every : table.Every property) (address : Address) :
    (table.remove address).Every property :=
  fun slot hSlot => every slot (List.mem_of_mem_filter hSlot)

theorem restore (every : table.Every property) (address : Address) (hHandler : property handler) :
    (table.restore address handler).Every property := by
  unfold TrapTable.restore
  split
  · refine every.setSlot address fun other hOther => ?_
    cases hOther
    exact hHandler
  · exact every

end Every

/-- The handlers that wait in a table, with their addresses, in the order of the slots. -/
def handlers (table : TrapTable η) : List (Address × η) :=
  table.slots.filterMap fun slot => slot.2.map fun handler => (slot.1, handler)

/-- The table with slots for further handlers behind its own. -/
def extend (table : TrapTable η) (waiting : List (Address × η)) : TrapTable η :=
  { table with slots := table.slots ++ waiting.map fun called => (called.1, some called.2) }

theorem extend_nil (table : TrapTable η) : table.extend [] = table := by
  simp [extend]

theorem extend_cons (table : TrapTable η) (called : Address × η) (waiting : List (Address × η)) :
    table.extend (called :: waiting) = (table.extend [called]).extend waiting := by
  simp [extend]

theorem addresses_extend (table : TrapTable η) (waiting : List (Address × η)) :
    (table.extend waiting).addresses = table.addresses ++ waiting.map Prod.fst := by
  simp [extend, addresses]

theorem size_extend (table : TrapTable η) (waiting : List (Address × η)) :
    (table.extend waiting).size = table.size + waiting.length := by
  simp [extend, size]

/-- A handler for a new address gets the slot behind all others. -/
theorem register?_of_new {table : TrapTable η} {address : Address} (handler : η)
    (hNew : address ∉ table.addresses) (hRoom : table.size < table.capacity) :
    table.register? address handler = some (table.extend [(address, handler)]) :=
  register?_eq_some_iff.mpr (.inr ⟨hNew, hRoom, rfl⟩)

/-- Without empty slots, a table is made of the handlers that wait in it. -/
theorem extend_handlers {table : TrapTable η}
    (hFull : ∀ slot ∈ table.slots, ∃ handler, slot.2 = some handler) :
    (empty table.capacity).extend table.handlers = table := by
  have hSlots : table.handlers.map (fun called => (called.1, some called.2)) = table.slots := by
    rw [handlers, List.map_filterMap]
    refine (List.filterMap_congr fun slot hSlot => ?_).trans List.filterMap_some
    obtain ⟨handler, hHandler⟩ := hFull slot hSlot
    rw [hHandler]
    exact congrArg some (Prod.ext rfl hHandler.symm)
  rw [extend, hSlots]
  rfl

/-- No address has two slots, and there are no more slots than the capacity allows. -/
structure Sound (table : TrapTable η) : Prop where
  distinct : table.addresses.Nodup
  bounded : table.size ≤ table.capacity

theorem sound_empty (capacity : Nat) : (empty capacity : TrapTable η).Sound :=
  ⟨List.nodup_nil, Nat.zero_le capacity⟩

theorem addresses_setSlot (table : TrapTable η) (address : Address) (content : Option η) :
    (table.setSlot address content).addresses = table.addresses := by
  unfold addresses setSlot
  rw [List.map_map]
  apply List.map_congr_left
  intro slot _
  simp only [Function.comp_apply]
  split
  · next h => exact (beq_iff_eq.mp h).symm
  · rfl

theorem length_addresses (table : TrapTable η) : table.addresses.length = table.size :=
  List.length_map _

namespace Sound

variable {table after : TrapTable η} {address : Address} {handler : η}

/-- Sound tables stay sound whatever is put into their slots. -/
theorem setSlot (sound : table.Sound) (address : Address) (content : Option η) :
    (table.setSlot address content).Sound := by
  refine ⟨?_, ?_⟩
  · rw [addresses_setSlot]
    exact sound.distinct
  · rw [← length_addresses, addresses_setSlot, length_addresses]
    exact sound.bounded

/-- A registration is accepted only where it keeps the table sound. -/
theorem register? (sound : table.Sound) (h : table.register? address handler = some after) :
    after.Sound := by
  rcases register?_eq_some_iff.mp h with ⟨_, rfl⟩ | ⟨hNew, hRoom, rfl⟩
  · exact sound.setSlot address (some handler)
  · refine ⟨?_, ?_⟩
    · simp only [addresses, List.map_append, List.map_cons, List.map_nil]
      rw [← List.concat_eq_append]
      exact sound.distinct.concat hNew
    · simpa [size, Nat.succ_le_iff] using hRoom

theorem remove (sound : table.Sound) (address : Address) : (table.remove address).Sound := by
  have hKept : (table.remove address).slots.Sublist table.slots := List.filter_sublist
  exact ⟨sound.distinct.sublist (hKept.map Prod.fst), Nat.le_trans hKept.length_le sound.bounded⟩

/-- A handler that comes back makes no slot, so the table stays within its capacity. -/
theorem restore (sound : table.Sound) (address : Address) (handler : η) :
    (table.restore address handler).Sound := by
  unfold TrapTable.restore
  split
  · exact sound.setSlot address (some handler)
  · exact sound

/-- In a sound table every slot is the one that is found for its address. -/
theorem slot?_of_mem (sound : table.Sound) {slot : Address × Option η} (h : slot ∈ table.slots) :
    table.slot? slot.1 = some slot.2 := by
  obtain ⟨found, hFound⟩ : ∃ found, table.slots.find? (fun other => other.1 == slot.1) = some found :=
    Option.isSome_iff_exists.mp (List.find?_isSome.mpr ⟨slot, h, beq_self_eq_true slot.1⟩)
  have hSame : found = slot :=
    List.inj_on_of_nodup_map sound.distinct (List.mem_of_find?_eq_some hFound) h
      (by simpa using List.find?_some hFound)
  rw [slot?, hFound, hSame, Option.map_some]

end Sound

end Mos6510.TrapTable
