import Sysprog.Lib.Chain
import Sysprog.Lib.Machine
import Sysprog.Lib.Memory

namespace Sysprog.FlatCombiner

variable {α : Type}

/-- A pointer to a slot, null if `none`, and the bit stolen from it. -/
structure TagedPointer (α : Type) where
  ptr : Option α
  tag : Bool
  deriving DecidableEq

namespace TagedPointer

/-- `TagedPointer{nullptr}`. -/
def null : TagedPointer α := ⟨none, true⟩

def setTag (p : TagedPointer α) (tag : Bool) : TagedPointer α := { p with tag }

end TagedPointer

/-- A `Slot`, but for the operation in it. -/
structure Slot (α : Type) where
  generation : UInt64
  needToProcess : Bool
  nextAndAlive : TagedPointer α
  deriving DecidableEq

def Slot.next (s : Slot α) : Option α := s.nextAndAlive.ptr

/-- The slots by their addresses; `none` where there is none, or no longer. -/
abbrev Slots (α : Type) := α → Option (Slot α)

def generationOffset : UInt64 := 100

/-- How `combining` can go wrong. -/
inductive Fault where
  /-- It follows a null pointer. -/
  | null
  /-- It looks at a slot that has been deleted. -/
  | deleted
  /-- It stores behind the end of `_combine_shot`. -/
  | shot
  deriving DecidableEq

def Slots.load (slots : Slots α) (a : α) : Except Fault (Slot α) :=
  match slots a with
  | some s => .ok s
  | none => .error .deleted

section

variable [DecidableEq α]

def Slots.store (slots : Slots α) (a : α) (s : Slot α) : Slots α := Function.update slots a (some s)

def Slots.delete (slots : Slots α) (a : α) : Slots α := Function.update slots a none

def dequeueSlot (slots : Slots α) (parent slot2remove : α) : Except Fault (Slots α) := do
  let removed ← slots.load slot2remove
  let tpNext := removed.nextAndAlive
  let p ← slots.load parent
  let parentTag := p.nextAndAlive.tag
  let removedSlotTag := tpNext.tag
  let tpNext := tpNext.setTag parentTag
  let slots := slots.store parent { p with nextAndAlive := tpNext }
  if removedSlotTag then .ok (slots.store slot2remove { removed with nextAndAlive := .null })
  else .ok (slots.delete slot2remove)

end

/-- The memory and the variables of `combining`. The length of `shot`, which is `_combine_shot`, is
`QMS`. -/
structure Scan (α : Type) where
  slots : Slots α
  parent : α
  curSlot : Option α
  i : Nat
  shot : Block α

/-- `parent = cur_slot;` and `cur_slot = cur_slot->next()`. -/
def Scan.advance (s : Scan α) (curSlot : α) : Except Fault (Scan α) := do
  let slot ← s.slots.load curSlot
  .ok { s with parent := curSlot, curSlot := slot.next }

/-- One turn of the loop of `combining`. -/
def Scan.turn [DecidableEq α] (gen : UInt64) (s : Scan α) : Except Fault (Scan α) :=
  match s.curSlot with
  | none => .error .null
  | some curSlot => do
    let slot ← s.slots.load curSlot
    if slot.needToProcess then
      match s.shot.store s.i curSlot with
      | none => .error .shot
      | some shot =>
        let slots := s.slots.store curSlot { slot with generation := gen }
        { s with slots, shot, i := s.i + 1 }.advance curSlot
    else if slot.generation < gen - generationOffset then do
      let slots ← dequeueSlot s.slots s.parent curSlot
      -- `cur_slot = parent`
      { s with slots }.advance s.parent
    else s.advance curSlot

/-- Where `combining` is. -/
inductive Combining (α : Type) where
  | scanning (s : Scan α)
  | returned (s : Scan α)
  | faulted (f : Fault)

namespace Combining

def ofTurn : Except Fault (Scan α) → Combining α
  | .ok s => scanning s
  | .error f => faulted f

def step [DecidableEq α] (gen : UInt64) : Combining α → Option (Combining α)
  | scanning s =>
    -- `||`: neither half alone ends the loop
    if s.curSlot ≠ none ∨ s.i < s.shot.length then some (ofTurn (s.turn gen))
    else some (returned s)
  | returned _ => none
  | faulted _ => none

/-- `combining` up to its loop; `queue` is `_queue`. -/
def start (slots : Slots α) (queue : α) (shot : Block α) : Combining α :=
  ofTurn do
    let slot ← slots.load queue
    .ok ⟨slots, queue, slot.next, 0, shot⟩

end Combining

end Sysprog.FlatCombiner
