/-! The instructions of one method under edit. Every instruction sits in a
numbered slot and keeps its number for good: removing it leaves the slot
vacant, so that positions which named it still lead to the instruction that
follows. Numbers grow in list order because instructions are only ever added
at the end. -/
namespace LiteralRecovery

/-- Number of a slot. -/
abbrev NodeId := Nat

/-- A slot of a listing. A closed slot was vacant, with nothing live behind it,
when an instruction was added; what is added later does not follow it. -/
inductive Slot (α : Type) where
  | live (content : α)
  | vacant
  | closed
deriving DecidableEq

namespace Slot

variable {α : Type}

def content? : Slot α → Option α
  | .live content => some content
  | _ => none

def isLive : Slot α → Bool
  | .live _ => true
  | _ => false

end Slot

/-- A sequence of instructions with stable numbers. -/
structure Listing (α : Type) where
  slots : Array (Slot α)
deriving DecidableEq

namespace Listing

variable {α : Type}

def empty : Listing α := ⟨#[]⟩

/-- Number of slots, vacant ones included. -/
def size (list : Listing α) : Nat := list.slots.size

def get? (list : Listing α) (id : NodeId) : Option α :=
  list.slots[id]?.bind Slot.content?

def isLive (list : Listing α) (id : NodeId) : Bool := (list.get? id).isSome

/-- The live nodes with their contents, in list order. -/
def items (list : Listing α) : List (NodeId × α) :=
  list.slots.toList.zipIdx.filterMap fun (slot, id) => slot.content?.map (id, ·)

/-- The live nodes, in list order. -/
def ids (list : Listing α) : List NodeId := list.items.map (·.1)

/-- The contents of the live nodes, in list order. -/
def toList (list : Listing α) : List α := list.items.map (·.2)

/-- Number of live nodes. -/
def length (list : Listing α) : Nat := list.items.length

/-- The first live node among the `count` slots from `id` on. -/
def searchLive (list : Listing α) : (count : Nat) → (id : NodeId) → Option NodeId
  | 0, _ => none
  | count + 1, id => if list.isLive id then some id else list.searchLive count (id + 1)

/-- The first live node not below `id`. -/
def liveFrom (list : Listing α) (id : NodeId) : Option NodeId :=
  list.searchLive (list.size - id) id

def first (list : Listing α) : Option NodeId := list.liveFrom 0

/-- The live node that follows `id`, which may itself be vacant. Nothing follows
a closed slot. -/
def next (list : Listing α) (id : NodeId) : Option NodeId :=
  match list.slots[id]? with
  | some .closed | none => none
  | some _ => list.liveFrom (id + 1)

/-- `id` itself while it is live, and the node that follows it afterwards. -/
def resolve (list : Listing α) (id : NodeId) : Option NodeId :=
  if list.isLive id then some id else list.next id

/-- `count` consecutive live nodes starting with `id`. -/
def window (list : Listing α) : (count : Nat) → (id : NodeId) → Option (List (NodeId × α))
  | 0, _ => some []
  | 1, id => (list.get? id).map fun content => [(id, content)]
  | count + 2, id => do
    let content ← list.get? id
    let following ← list.next id
    let rest ← list.window (count + 1) following
    return (id, content) :: rest

/-- Closes the vacant slots behind the last live node among the first `count`. -/
def closeBehind (slots : Array (Slot α)) : (count : Nat) → Array (Slot α)
  | 0 => slots
  | count + 1 =>
    match slots[count]? with
    | some (.live _) => slots
    | _ => closeBehind (slots.setIfInBounds count .closed) count

/-- Adds an instruction at the end. Its number is the size before. -/
def push (list : Listing α) (content : α) : Listing α :=
  ⟨(closeBehind list.slots list.size).push (.live content)⟩

def ofList (contents : List α) : Listing α := ⟨(contents.map Slot.live).toArray⟩

/-- Gives a live node new contents; any other id changes nothing. -/
def replace (list : Listing α) (id : NodeId) (content : α) : Listing α :=
  if list.isLive id then ⟨list.slots.setIfInBounds id (.live content)⟩ else list

/-- Takes a live node out; any other id changes nothing. -/
def remove (list : Listing α) (id : NodeId) : Listing α :=
  if list.isLive id then ⟨list.slots.setIfInBounds id .vacant⟩ else list

def removeAll (list : Listing α) (ids : List NodeId) : Listing α := ids.foldl remove list

end Listing

end LiteralRecovery
