import Mathlib.Logic.Function.Basic

/-!
# A String that is reused

A reader writes one field after the other through a pointer into a String. Where the String
itself is given away as the value of a field a new one takes its place, else the next field
is written over it. `Keeps` says that whatever was given away still reads as it did then.
-/

namespace RubyPg
set_option autoImplicit false

variable {α β : Type}

/-- A String object: its memory, and how much of it belongs to the String. -/
structure StringObject (α : Type) where
  memory : List α
  len : Nat

def StringObject.value (o : StringObject α) : List α := o.memory.take o.len

/-- The String objects by number, the latest of which is written to, and how far the pointer is from
its start. -/
structure FieldBuffer (α : Type) where
  objects : Nat → StringObject α
  fieldStr : Nat
  outputPtr : Nat

/-- What an array holds at an index: a value, or a String object. -/
inductive Slot (β : Type) where
  | value (v : β)
  | object (id : Nat)

namespace FieldBuffer

/-- The String that is written to. -/
def current (b : FieldBuffer α) : StringObject α := b.objects b.fieldStr

/-- What has been written since the pointer was at the start. -/
def written (b : FieldBuffer α) : List α := b.current.memory.take b.outputPtr

/-- The first String. -/
def new : FieldBuffer α := ⟨fun _ => ⟨[], 0⟩, 0, 0⟩

/-- Change the String that is written to. -/
def modify (b : FieldBuffer α) (o : StringObject α) : FieldBuffer α :=
  { b with objects := Function.update b.objects b.fieldStr o }

/-- `*output_ptr++ = c`. -/
def put (b : FieldBuffer α) (c : α) : FieldBuffer α :=
  { b.modify { b.current with memory := b.current.memory.take b.outputPtr ++ c :: b.current.memory.drop (b.outputPtr + 1) }
    with outputPtr := b.outputPtr + 1 }

/-- The String ends where the pointer is. -/
def setLen (b : FieldBuffer α) : FieldBuffer α := b.modify { b.current with len := b.outputPtr }

/-- A new String to write to. -/
def renew (b : FieldBuffer α) : FieldBuffer α :=
  ⟨Function.update b.objects (b.fieldStr + 1) ⟨[], 0⟩, b.fieldStr + 1, 0⟩

/-- The pointer goes back to the start. -/
def rewind (b : FieldBuffer α) : FieldBuffer α := { b with outputPtr := 0 }

/-- What stands in the array. -/
def deref (wrap : List α → β) (b : FieldBuffer α) : Slot β → β
  | .value v => v
  | .object id => wrap (b.objects id).value

/-- The field that is being written, and what was given away before. -/
structure Keeps (wrap : List α → β) (b : FieldBuffer α) (slots : List (Slot β)) (values : List β) (field : List α) :
    Prop where
  inside : b.outputPtr ≤ b.current.memory.length
  written : b.written = field
  older : ∀ id, .object id ∈ slots → id < b.fieldStr
  reads : slots.map (b.deref wrap) = values

section Keeps

variable {wrap : List α → β} {b : FieldBuffer α} {slots : List (Slot β)} {values : List β} {field : List α}

/-- The Strings in front of the latest one decide what the array holds. -/
theorem deref_congr {b' : FieldBuffer α} (older : ∀ id, .object id ∈ slots → id < b.fieldStr)
    (same : ∀ id < b.fieldStr, b'.objects id = b.objects id) : slots.map (b'.deref wrap) = slots.map (b.deref wrap) := by
  apply List.map_congr_left
  intro slot member
  cases slot with
  | value v => rfl
  | object id => rw [deref, same id (older id member), deref]

@[simp] theorem current_modify (b : FieldBuffer α) (o : StringObject α) : (b.modify o).current = o :=
  Function.update_self _ _ _

theorem objects_modify (o : StringObject α) : ∀ id < b.fieldStr, (b.modify o).objects id = b.objects id :=
  fun _ before => Function.update_of_ne (Nat.ne_of_lt before) _ _

theorem Keeps.new : Keeps wrap (FieldBuffer.new : FieldBuffer α) [] [] [] := ⟨Nat.zero_le _, rfl, nofun, rfl⟩

/-- One more byte. -/
theorem Keeps.put (keeps : Keeps wrap b slots values field) (c : α) : Keeps wrap (b.put c) slots values (field ++ [c]) := by
  have length : (b.current.memory.take b.outputPtr).length = b.outputPtr := by
    rw [List.length_take]
    exact Nat.min_eq_left keeps.inside
  have memory : (b.put c).current.memory =
      b.current.memory.take b.outputPtr ++ c :: b.current.memory.drop (b.outputPtr + 1) :=
    congrArg StringObject.memory (current_modify b _)
  constructor
  · rw [memory, List.length_append, List.length_cons, length]
    show b.outputPtr + 1 ≤ _
    omega
  · rw [FieldBuffer.written, memory]
    show List.take (b.outputPtr + 1) _ = _
    rw [List.take_append, length, Nat.add_sub_cancel_left, List.take_of_length_le (by omega), List.take_succ_cons,
      List.take_zero, ← keeps.written]
    rfl
  · exact keeps.older
  · exact (deref_congr keeps.older (objects_modify _)).trans keeps.reads

/-- The length is that of the field. -/
theorem Keeps.setLen (keeps : Keeps wrap b slots values field) :
    Keeps wrap b.setLen slots values field ∧ b.setLen.current.value = field := by
  have current : b.setLen.current = { b.current with len := b.outputPtr } := current_modify b _
  refine ⟨⟨?_, ?_, keeps.older, ?_⟩, ?_⟩
  · rw [current]
    exact keeps.inside
  · rw [FieldBuffer.written, current]
    exact keeps.written
  · exact (deref_congr keeps.older (objects_modify _)).trans keeps.reads
  · rw [current]
    exact keeps.written

/-- The field is not needed any more. -/
theorem Keeps.rewind (keeps : Keeps wrap b slots values field) : Keeps wrap b.rewind slots values [] :=
  ⟨Nat.zero_le _, rfl, keeps.older, keeps.reads⟩

/-- A value that is no String of the buffer. -/
theorem Keeps.pushValue (keeps : Keeps wrap b slots values field) (v : β) :
    Keeps wrap b (slots ++ [.value v]) (values ++ [v]) field := by
  refine ⟨keeps.inside, keeps.written, fun id member => ?_, ?_⟩
  · rcases List.mem_append.1 member with before | last
    · exact keeps.older id before
    · cases last with
      | tail _ none => cases none
  · rw [List.map_append, keeps.reads]
    rfl

/-- The String is given away, and a new one takes its place. -/
theorem Keeps.pushObject (keeps : Keeps wrap b slots values field) (value : b.current.value = field) :
    Keeps wrap b.renew (slots ++ [.object b.fieldStr]) (values ++ [wrap field]) [] := by
  have same : ∀ id < b.fieldStr + 1, b.renew.objects id = b.objects id :=
    fun id before => Function.update_of_ne (Nat.ne_of_lt before) _ _
  refine ⟨Nat.zero_le _, rfl, fun id member => ?_, ?_⟩
  · rcases List.mem_append.1 member with before | last
    · exact Nat.lt_succ_of_lt (keeps.older id before)
    · cases last with
      | head => exact Nat.lt_succ_self _
      | tail _ none => cases none
  · have others : slots.map (b.renew.deref wrap) = slots.map (b.deref wrap) :=
      deref_congr keeps.older fun id before => same id (Nat.lt_succ_of_lt before)
    have last : wrap (b.renew.objects b.fieldStr).value = wrap field := by
      rw [same _ (Nat.lt_succ_self _)]
      exact congrArg wrap value
    rw [List.map_append, others, keeps.reads, List.map_singleton, deref, last]

end Keeps

end FieldBuffer

end RubyPg
