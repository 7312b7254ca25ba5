import LiteralRecovery.Proofs.Shapes

/-! How deep the operand stack gets. Every instruction has a stack effect, read off
its descriptor where it has one, and the depth at a place of the code is the sum of
the effects before it. Code in which a segment is replaced by at most one instruction
of the same effect has the same depth at every node that is left, and gets no
deeper. -/
namespace LiteralRecovery

/-! ### Descriptors -/

namespace Descriptor

/-- Stack slots of a value, none of them for a call without a result. -/
def slots (descriptor : List Char) : Int :=
  if descriptor = ['J'] ∨ descriptor = ['D'] then 2
  else if descriptor = ['V'] then 0
  else 1

/-- Where a scan through the arguments of a call stands: before an argument, behind
the bracket of an array, or within the name of a class. -/
inductive Scan where
  | argument | element | name
deriving DecidableEq

namespace Scan

/-- Where the scan stands behind a character. -/
def next : Scan → Char → Scan
  | .name, letter => if letter = ';' then .argument else .name
  | _, letter => if letter = 'L' then .name else if letter = '[' then .element else .argument

/-- Stack slots of the argument that starts with a character. -/
def takes : Scan → Char → Int
  | .argument, letter => if letter = 'J' ∨ letter = 'D' then 2 else 1
  | _, _ => 0

end Scan

/-- The stack effect of a call, from what is left of its descriptor: arguments are
taken off, and the result is put on. -/
def callEffect : Scan → List Char → Int
  | _, [] => 0
  | scan, letter :: rest =>
    if scan = .argument ∧ letter = ')' then slots rest
    else callEffect (scan.next letter) rest - scan.takes letter

/-- The descriptors of references: classes and arrays. -/
inductive IsReference : List Char → Prop where
  | object (name : List Char) (plain : ';' ∉ name) : IsReference ('L' :: (name ++ [';']))
  | base (letter : Char) (known : letter ∈ ['B', 'C', 'D', 'F', 'I', 'J', 'S', 'Z']) :
      IsReference ['[', letter]
  | array {element : List Char} (inner : IsReference element) : IsReference ('[' :: element)

/-- The descriptors of methods that take one reference and return one. -/
def MapsReference (descriptor : List Char) : Prop :=
  ∃ taken returned, IsReference taken ∧ IsReference returned ∧
    descriptor = '(' :: (taken ++ ')' :: returned)

end Descriptor

namespace ElementKind

/-- Stack slots of an element. -/
def slots : ElementKind → Int
  | .long => 2
  | .int | .reference => 1

/-- The descriptors of arrays with elements of a kind. -/
inductive IsArray : ElementKind → List Char → Prop where
  | int : IsArray .int ['[', 'I']
  | long : IsArray .long ['[', 'J']
  | reference {element : List Char} (inner : Descriptor.IsReference element) :
      IsArray .reference ('[' :: element)

end ElementKind

namespace Descriptor

variable {descriptor rest : List Char} {kind kind' : ElementKind}

theorem callEffect_name {name : List Char} (plain : ';' ∉ name) (rest : List Char) :
    callEffect .name (name ++ ';' :: rest) = callEffect .argument rest := by
  induction name with
  | nil => simp [callEffect, Scan.next, Scan.takes]
  | cons letter name ih =>
    simp only [List.mem_cons, not_or] at plain
    rw [List.cons_append, callEffect, if_neg (by simp), Scan.next,
      if_neg fun same => plain.1 same.symm, ih plain.2]
    exact Int.sub_zero _

/-- A reference as the element of an array counts for nothing. -/
theorem callEffect_element (reference : IsReference descriptor) (rest : List Char) :
    callEffect .element (descriptor ++ rest) = callEffect .argument rest := by
  induction reference with
  | object name plain =>
    simpa [callEffect, Scan.next, Scan.takes] using callEffect_name plain rest
  | base letter known =>
    simp only [List.mem_cons, List.not_mem_nil, or_false] at known
    rcases known with rfl | rfl | rfl | rfl | rfl | rfl | rfl | rfl <;>
      simp [callEffect, Scan.next, Scan.takes]
  | array _ ih => simpa [callEffect, Scan.next, Scan.takes] using ih

/-- A reference as an argument takes one slot off the stack. -/
theorem callEffect_argument (reference : IsReference descriptor) (rest : List Char) :
    callEffect .argument (descriptor ++ rest) = callEffect .argument rest - 1 := by
  have inner := callEffect_element reference rest
  -- whatever starts a reference leads on alike from an argument and from an element
  cases reference <;>
    simpa [callEffect, Scan.next, Scan.takes] using inner

theorem slots_of_reference (reference : IsReference descriptor) : slots descriptor = 1 := by
  cases reference <;> simp [slots]

/-- A call that turns a reference into another leaves the depth as it is. -/
theorem callEffect_of_mapsReference (maps : MapsReference descriptor) :
    callEffect .argument descriptor.tail = 0 := by
  obtain ⟨taken, returned, argument, result, rfl⟩ := maps
  rw [List.tail_cons, callEffect_argument argument, callEffect, if_pos ⟨rfl, rfl⟩,
    slots_of_reference result]
  rfl

theorem slots_of_isArray (array : kind.IsArray descriptor) : slots descriptor = 1 := by
  cases array <;> simp [slots]

theorem IsReference.two_le_length (reference : IsReference descriptor) :
    2 ≤ descriptor.length := by
  induction reference with
  | object name plain => simp
  | base letter known => simp
  | array _ ih => exact Nat.le_succ_of_le ih

/-- A descriptor is that of arrays of one kind only. -/
theorem kind_of_isArray (array : kind.IsArray descriptor) (array' : kind'.IsArray descriptor) :
    kind = kind' := by
  cases array with
  | int =>
    cases array' with
    | int => rfl
    | reference inner => exact absurd inner.two_le_length (by decide)
  | long =>
    cases array' with
    | long => rfl
    | reference inner => exact absurd inner.two_le_length (by decide)
  | reference inner =>
    cases array' with
    | reference => rfl
    | _ => exact absurd inner.two_le_length (by decide)

end Descriptor

/-! ### Depth -/

namespace Instruction

/-- What an instruction adds to the depth of the stack. For code that no pass looks
into it is whatever the second argument says. -/
def effect (others : Instruction → Int) : Instruction → Int
  | .intConst _ | .stringConst _ | .nullConst => 1
  | .longConst _ => 2
  | .bitwise .int _ => -1
  | .bitwise .long _ => -2
  | .getStatic field => Descriptor.slots field.descriptor.toList
  | .putStatic field => -Descriptor.slots field.descriptor.toList
  | .newArray _ => 0
  | .arrayLoad kind => kind.slots - 2
  | .arrayStore kind => -kind.slots - 2
  | .invokeStatic target _ => Descriptor.callEffect .argument target.descriptor.toList.tail
  | .plain code => others (.plain code)
  | .jump code targets => others (.jump code targets)

/-- What a sequence adds to the depth of the stack. -/
def total (effect : Instruction → Int) : List Instruction → Int
  | [] => 0
  | instruction :: rest => effect instruction + total effect rest

/-- The greatest depth that is reached before, within or behind a sequence, from an
empty stack. -/
def peak (effect : Instruction → Int) : List Instruction → Int
  | [] => 0
  | instruction :: rest => max 0 (effect instruction + peak effect rest)

variable (effect : Instruction → Int)

@[simp] theorem total_nil : total effect [] = 0 := rfl

@[simp] theorem total_cons (instruction : Instruction) (rest : List Instruction) :
    total effect (instruction :: rest) = effect instruction + total effect rest := rfl

@[simp] theorem total_append (front back : List Instruction) :
    total effect (front ++ back) = total effect front + total effect back := by
  induction front with
  | nil => simp
  | cons instruction front ih => simp [ih, Int.add_assoc]

theorem peak_nonneg (code : List Instruction) : 0 ≤ peak effect code := by
  cases code with
  | nil => exact Int.le_refl _
  | cons instruction rest => exact Int.le_max_left _ _

theorem peak_append (front back : List Instruction) :
    peak effect (front ++ back) =
      max (peak effect front) (total effect front + peak effect back) := by
  induction front with
  | nil =>
    have start := peak_nonneg effect back
    simp only [List.nil_append, peak, total_nil]
    omega
  | cons instruction front ih =>
    simp only [List.cons_append, peak, ih, total_cons]
    omega

theorem total_le_peak (code : List Instruction) : total effect code ≤ peak effect code := by
  induction code with
  | nil => simp [peak]
  | cons instruction rest ih =>
    simp only [total_cons, peak]
    omega

end Instruction

namespace Listing

variable {effect : Instruction → Int} {first second third code code' : Listing Instruction}
variable {before segment middle after : List (NodeId × Instruction)}

/-- The depth of the stack before a node. -/
def depthBefore (effect : Instruction → Int) (code : Listing Instruction) (id : NodeId) : Int :=
  Instruction.total effect ((code.items.takeWhile (·.1 ≠ id)).map (·.2))

/-- The greatest depth that the code reaches. -/
def peak (effect : Instruction → Int) (code : Listing Instruction) : Int :=
  Instruction.peak effect code.toList

theorem depthBefore_of_split {id : NodeId} {content : Instruction}
    (split : code.items = before ++ (id, content) :: after) :
    code.depthBefore effect id = Instruction.total effect (before.map (·.2)) := by
  have ascending := code.items_ascending
  rw [split, List.pairwise_append] at ascending
  have others : ∀ entry ∈ before, decide (entry.1 ≠ id) = true := fun entry member =>
    decide_eq_true (Nat.ne_of_lt (ascending.2.2 entry member _ List.mem_cons_self))
  rw [depthBefore, split, List.takeWhile_append_of_pos others]
  simp

/-- Every node that is left has the depth it had, and the code gets no deeper. -/
structure Levels (effect : Instruction → Int) (earlier later : Listing Instruction) : Prop where
  live : ∀ id, later.isLive id = true → earlier.isLive id = true
  depth : ∀ id, later.isLive id = true →
    later.depthBefore effect id = earlier.depthBefore effect id
  peak : later.peak effect ≤ earlier.peak effect

theorem Levels.refl (effect : Instruction → Int) (code : Listing Instruction) :
    Levels effect code code :=
  ⟨fun _ live => live, fun _ _ => rfl, Int.le_refl _⟩

theorem Levels.trans (early : Levels effect first second) (late : Levels effect second third) :
    Levels effect first third :=
  ⟨fun id alive => early.live id (late.live id alive),
    fun id alive => (late.depth id alive).trans (early.depth id (late.live id alive)),
    Int.le_trans late.peak early.peak⟩

/-- A segment may be traded for at most one instruction of the same effect, at its
first node. -/
theorem levels_of_trade (split : code.items = before ++ segment ++ after)
    (split' : code'.items = before ++ middle ++ after)
    (single : middle = [] ∨ ∃ id content value rest,
      middle = [(id, value)] ∧ segment = (id, content) :: rest)
    (same : Instruction.total effect (middle.map (·.2)) =
      Instruction.total effect (segment.map (·.2))) :
    Levels effect code code' := by
  have place : ∀ id, code'.isLive id = true → code.isLive id = true ∧
      code'.depthBefore effect id = code.depthBefore effect id := by
    intro id alive
    obtain ⟨held, present⟩ := isLive_iff.mp alive
    have listed := mem_items.mpr present
    rw [split', List.mem_append, List.mem_append] at listed
    rcases listed with (early | inside) | late
    · obtain ⟨front, back, rfl⟩ := List.mem_iff_append.mp early
      have here : code.items = front ++ (id, held) :: (back ++ segment ++ after) := by simp [split]
      have there : code'.items = front ++ (id, held) :: (back ++ middle ++ after) := by
        simp [split']
      exact ⟨isLive_iff.mpr ⟨held, get?_of_split here⟩,
        (depthBefore_of_split there).trans (depthBefore_of_split here).symm⟩
    · rcases single with rfl | ⟨head, content, value, rest, rfl, rfl⟩
      · cases inside
      · cases List.mem_singleton.mp inside
        have here : code.items = before ++ (id, content) :: (rest ++ after) := by simp [split]
        have there : code'.items = before ++ (id, held) :: after := by simp [split']
        exact ⟨isLive_iff.mpr ⟨content, get?_of_split here⟩,
          (depthBefore_of_split there).trans (depthBefore_of_split here).symm⟩
    · obtain ⟨front, back, rfl⟩ := List.mem_iff_append.mp late
      have here : code.items = (before ++ segment ++ front) ++ (id, held) :: back := by simp [split]
      have there : code'.items = (before ++ middle ++ front) ++ (id, held) :: back := by
        simp [split']
      refine ⟨isLive_iff.mpr ⟨held, get?_of_split here⟩, ?_⟩
      rw [depthBefore_of_split there, depthBefore_of_split here]
      simp only [List.map_append, Instruction.total_append, same]
  refine ⟨fun id alive => (place id alive).1, fun id alive => (place id alive).2, ?_⟩
  -- a single push peaks where it ends, and the segment ends there as well
  have lower : Instruction.peak effect (middle.map (·.2)) ≤
      Instruction.peak effect (segment.map (·.2)) := by
    have reached := Instruction.total_le_peak effect (segment.map (·.2))
    have start := Instruction.peak_nonneg effect (segment.map (·.2))
    rcases single with rfl | ⟨id, content, value, rest, rfl, _⟩
    · exact start
    · rw [← same] at reached
      simp only [List.map_cons, List.map_nil, Instruction.total_cons, Instruction.total_nil,
        Instruction.peak] at reached ⊢
      omega
  simp only [peak, toList, split, split', List.map_append, Instruction.peak_append,
    Instruction.total_append, same]
  omega

theorem levels_remove_segment (stands : Stands code segment)
    (neutral : Instruction.total effect (segment.map (·.2)) = 0) :
    Levels effect code (code.removeAll (segment.map (·.1))) := by
  obtain ⟨before, after, split⟩ := stands
  have traded : (code.removeAll (segment.map (·.1))).items = before ++ [] ++ after := by
    simpa using items_removeAll_segment split
  exact levels_of_trade split traded (.inl rfl) neutral.symm

theorem levels_collapse {id : NodeId} {content value : Instruction}
    {rest : List (NodeId × Instruction)} (stands : Stands code ((id, content) :: rest))
    (same : effect value = Instruction.total effect (content :: rest.map (·.2))) :
    Levels effect code ((code.removeAll (rest.map (·.1))).replace id value) := by
  obtain ⟨before, after, split⟩ := stands
  have traded : ((code.removeAll (rest.map (·.1))).replace id value).items =
      before ++ [(id, value)] ++ after := by
    simpa using items_collapse value split
  exact levels_of_trade split traded (.inr ⟨id, content, value, rest, rfl, rfl⟩)
    (by simpa using same)

end Listing

end LiteralRecovery
