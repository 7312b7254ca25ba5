import LiteralRecovery.Proofs.Segment
import LiteralRecovery.Recovery.Transform

/-! What the passes look for, as segments of the live view: foldable
expressions, reads and stores of tables, allocations. A read, a store and an
allocation never share a node with one another, and two stores or two
allocations share one only if they are the same. -/
namespace LiteralRecovery

open Listing

variable {code : Listing Instruction} {id : NodeId}

/-- The live view around a segment. -/
def Stands (code : Listing Instruction) (segment : List (NodeId × Instruction)) : Prop :=
  ∃ before after, code.items = before ++ segment ++ after

theorem stands_live {segment : List (NodeId × Instruction)} (stands : Stands code segment)
    (entry : NodeId × Instruction) (member : entry ∈ segment) :
    code.get? entry.1 = some entry.2 := by
  obtain ⟨before, after, split⟩ := stands
  exact mem_items.mp (by simp [split, member])

/-- A node does not stand twice in a segment. -/
theorem head_not_mem_of_stands {content : Instruction} {rest : List (NodeId × Instruction)}
    (stands : Stands code ((id, content) :: rest)) : id ∉ rest.map (·.1) := by
  obtain ⟨before, after, split⟩ := stands
  have ascending := code.items_ascending
  rw [split, List.pairwise_append, List.pairwise_append, List.pairwise_cons] at ascending
  intro member
  obtain ⟨twin, inside, same⟩ := List.mem_map.mp member
  exact Nat.ne_of_gt (ascending.1.2.1.1 twin inside) same

theorem stands_of_toList {before contents after : List Instruction}
    (view : code.toList = before ++ contents ++ after) :
    ∃ segment, Stands code segment ∧ segment.map (·.2) = contents := by
  obtain ⟨front, late, split, front', rfl⟩ := List.map_eq_append_iff.mp view
  obtain ⟨early, segment, rfl, _, same⟩ := List.map_eq_append_iff.mp front'
  exact ⟨segment, ⟨early, late, split⟩, same⟩

/-- A segment of three known contents is three nodes. -/
theorem segment_of_three {segment : List (NodeId × Instruction)} {one two three : Instruction}
    (contents : segment.map (·.2) = [one, two, three]) :
    ∃ first second third, segment = [(first, one), (second, two), (third, three)] := by
  obtain ⟨⟨first, _⟩, _, rfl, rfl, behind⟩ := List.map_eq_cons_iff.mp contents
  obtain ⟨⟨second, _⟩, _, rfl, rfl, last⟩ := List.map_eq_cons_iff.mp behind
  obtain ⟨⟨third, _⟩, _, rfl, rfl, empty⟩ := List.map_eq_cons_iff.mp last
  cases List.map_eq_nil_iff.mp empty
  exact ⟨first, second, third, rfl⟩

theorem segment_of_four {segment : List (NodeId × Instruction)}
    {one two three four : Instruction} (contents : segment.map (·.2) = [one, two, three, four]) :
    ∃ first second third fourth,
      segment = [(first, one), (second, two), (third, three), (fourth, four)] := by
  obtain ⟨⟨first, _⟩, _, rfl, rfl, behind⟩ := List.map_eq_cons_iff.mp contents
  obtain ⟨second, third, fourth, rfl⟩ := segment_of_three behind
  exact ⟨first, second, third, fourth, rfl⟩

theorem segment_of_five {segment : List (NodeId × Instruction)}
    {one two three four five : Instruction}
    (contents : segment.map (·.2) = [one, two, three, four, five]) :
    ∃ first second third fourth fifth,
      segment = [(first, one), (second, two), (third, three), (fourth, four), (fifth, five)] := by
  obtain ⟨⟨first, _⟩, _, rfl, rfl, behind⟩ := List.map_eq_cons_iff.mp contents
  obtain ⟨second, third, fourth, fifth, rfl⟩ := segment_of_four behind
  exact ⟨first, second, third, fourth, fifth, rfl⟩

theorem window_stands {content : Instruction} {rest : List (NodeId × Instruction)}
    (stands : Stands code ((id, content) :: rest)) :
    code.window (rest.length + 1) id = some ((id, content) :: rest) := by
  obtain ⟨before, after, split⟩ := stands
  exact window_of_split split

theorem stands_of_window {count : Nat} {segment : List (NodeId × Instruction)}
    (found : code.window (count + 1) id = some segment) :
    Stands code segment ∧ segment.head?.map (·.1) = some id := by
  obtain ⟨content, rest, before, after, rfl, _, split⟩ := split_of_window found
  exact ⟨⟨before, after, split⟩, rfl⟩

/-! ### The four shapes -/

theorem Fold.match?_eq_some {width : Width} {mode : LongFold} {value : Instruction}
    {operands : List NodeId} :
    Fold.match? width mode code id = some (value, operands) ↔
      ∃ first second secondId opId op,
        Stands code [(id, first), (secondId, second), (opId, .bitwise width op)] ∧
          Fold.value? width mode op first second = some value ∧ operands = [secondId, opId] := by
  constructor
  · intro found
    unfold Fold.match? at found
    split at found
    · rename_i headId first secondId second opId opWidth op window
      obtain ⟨stands, head⟩ := stands_of_window window
      cases head
      split at found
      · rename_i same
        subst same
        obtain ⟨folded, valued, equal⟩ := Option.map_eq_some_iff.mp found
        cases equal
        exact ⟨first, second, secondId, opId, op, stands, valued, rfl⟩
      · cases found
    · cases found
  · rintro ⟨first, second, secondId, opId, op, stands, valued, rfl⟩
    have window := window_stands stands
    simp only [List.length_cons, List.length_nil, Nat.zero_add, Nat.reduceAdd] at window
    simp [Fold.match?, window, valued]

namespace StaticTable

theorem read?_eq_some {className : String} {kind : ElementKind} {site : ReadSite} :
    read? code id className kind = some site ↔
      ∃ indexId loadId,
        Stands code [(id, .getStatic site.field), (indexId, .intConst site.index),
          (loadId, .arrayLoad kind)] ∧
        site.field.owner = className ∧ site.tail = [indexId, loadId] := by
  constructor
  · intro found
    unfold read? at found
    split at found
    · rename_i headId field indexId index loadId loadKind window
      obtain ⟨stands, head⟩ := stands_of_window window
      cases head
      split at found
      · rename_i fits
        obtain ⟨own, rfl⟩ := fits
        cases found
        exact ⟨indexId, loadId, stands, own, rfl⟩
      · cases found
    · cases found
  · rintro ⟨indexId, loadId, stands, own, tail⟩
    have window := window_stands stands
    simp only [List.length_cons, List.length_nil, Nat.zero_add, Nat.reduceAdd] at window
    obtain ⟨field, index, nodes⟩ := site
    cases tail
    simp_all [read?]

/-- Whether an instruction pushes a constant. -/
def isConstant : Instruction → Bool
  | .intConst _ | .longConst _ | .stringConst _ | .nullConst => true
  | _ => false

/-- The store of some constant into a table at an index, be it as it is or
through some method. -/
inductive ConstantStore (field : MemberRef) (index : Int32) :
    List (NodeId × Instruction) → Prop where
  | direct (head indexId valueId storeId : NodeId) (value : Instruction) (kind : ElementKind)
      (constant : isConstant value = true) :
      ConstantStore field index [(head, .getStatic field), (indexId, .intConst index),
        (valueId, value), (storeId, .arrayStore kind)]
  | through (head indexId valueId callId storeId : NodeId) (value : Instruction)
      (helper : MemberRef) (onInterface : Bool) (kind : ElementKind)
      (constant : isConstant value = true) :
      ConstantStore field index [(head, .getStatic field), (indexId, .intConst index),
        (valueId, value), (callId, .invokeStatic helper onInterface), (storeId, .arrayStore kind)]

/-- A constant store starts with the read of its table, and holds no other. -/
theorem ConstantStore.head {field : MemberRef} {index : Int32}
    {segment : List (NodeId × Instruction)} (shape : ConstantStore field index segment) :
    ∃ head rest, segment = (head, .getStatic field) :: rest ∧
      ∀ entry ∈ rest, ∀ target, entry.2 ≠ .getStatic target := by
  have other {value : Instruction} (constant : isConstant value = true) (target : MemberRef) :
      value ≠ .getStatic target := by
    rintro rfl
    cases constant
  cases shape with
  | direct head indexId valueId storeId value kind constant =>
    exact ⟨head, _, rfl, by simpa using other constant⟩
  | through head indexId valueId callId storeId value helper onInterface kind constant =>
    exact ⟨head, _, rfl, by simpa using other constant⟩

/-- A constant store neither loads from an array nor creates one. -/
theorem ConstantStore.foreign {field : MemberRef} {index : Int32}
    {segment : List (NodeId × Instruction)} (shape : ConstantStore field index segment) :
    ∀ entry ∈ segment, (∀ kind, entry.2 ≠ .arrayLoad kind) ∧ ∀ kind, entry.2 ≠ .newArray kind := by
  have other {value : Instruction} (constant : isConstant value = true) :
      (∀ kind, value ≠ .arrayLoad kind) ∧ ∀ kind, value ≠ .newArray kind := by
    constructor <;> rintro kind rfl <;> cases constant
  cases shape with
  | direct head indexId valueId storeId value kind constant => simpa using other constant
  | through head indexId valueId callId storeId value helper onInterface kind constant =>
    simpa using other constant

/-- The nodes of a constant store decide its table and its index. -/
theorem ConstantStore.unique {field field' : MemberRef} {index index' : Int32}
    {segment : List (NodeId × Instruction)} (shape : ConstantStore field index segment)
    (shape' : ConstantStore field' index' segment) : field = field' ∧ index = index' := by
  cases shape <;> cases shape' <;> exact ⟨rfl, rfl⟩

/-- The nodes of a store and what the store says. -/
inductive StoreSegment (className : String) (field : MemberRef) :
    ElementKind → StoreSite → List (NodeId × Instruction) → Prop where
  | int (head indexId valueId storeId : NodeId) (index value : Int32) :
      StoreSegment className field .int
        ⟨[head, indexId, valueId, storeId], index, .intConst value, none⟩
        [(head, .getStatic field), (indexId, .intConst index), (valueId, .intConst value),
          (storeId, .arrayStore .int)]
  | long (head indexId valueId storeId : NodeId) (index : Int32) (value : Int64) :
      StoreSegment className field .long
        ⟨[head, indexId, valueId, storeId], index, .longConst value, none⟩
        [(head, .getStatic field), (indexId, .intConst index), (valueId, .longConst value),
          (storeId, .arrayStore .long)]
  | string (head indexId valueId callId storeId : NodeId) (index : Int32) (cipher : UnitString)
      (helper : MemberRef) (onInterface : Bool) (own : helper.owner = className) :
      StoreSegment className field .reference
        ⟨[head, indexId, valueId, callId, storeId], index, .stringConst cipher, some helper⟩
        [(head, .getStatic field), (indexId, .intConst index), (valueId, .stringConst cipher),
          (callId, .invokeStatic helper onInterface), (storeId, .arrayStore .reference)]

section Store

variable {className : String} {field : MemberRef} {kind : ElementKind} {site : StoreSite}
variable {segment : List (NodeId × Instruction)}

theorem StoreSegment.constant (shape : StoreSegment className field kind site segment) :
    ConstantStore field site.index segment := by
  cases shape with
  | int => exact .direct _ _ _ _ _ _ rfl
  | long => exact .direct _ _ _ _ _ _ rfl
  | string => exact .through _ _ _ _ _ _ _ _ _ rfl

/-- The nodes of a store decide what it says. -/
theorem StoreSegment.unique {className' : String} {field' : MemberRef} {kind' : ElementKind}
    {site' : StoreSite} (shape : StoreSegment className field kind site segment)
    (shape' : StoreSegment className' field' kind' site' segment) :
    field = field' ∧ kind = kind' ∧ site = site' := by
  cases shape <;> cases shape' <;> simp

theorem StoreSegment.nodes (shape : StoreSegment className field kind site segment) :
    segment.map (·.1) = site.nodes := by
  cases shape <;> rfl

theorem StoreSegment.head (shape : StoreSegment className field kind site segment) :
    ∃ head rest, segment = (head, .getStatic field) :: rest ∧ site.nodes.head? = some head := by
  cases shape <;> exact ⟨_, _, rfl, rfl⟩

private theorem plainStore?_eq_some {suits : Instruction → Bool} :
    plainStore? code id field kind suits = some site ↔
      ∃ indexId valueId storeId,
        Stands code [(id, .getStatic field), (indexId, .intConst site.index),
          (valueId, site.value), (storeId, .arrayStore kind)] ∧
        suits site.value = true ∧ site.helper = none ∧
          site.nodes = [id, indexId, valueId, storeId] := by
  constructor
  · intro found
    unfold plainStore? at found
    split at found
    · rename_i headId head indexId index valueId value storeId storeKind window
      obtain ⟨stands, start⟩ := stands_of_window window
      cases start
      split at found
      · rename_i fits
        obtain ⟨rfl, suitable, rfl⟩ := fits
        cases found
        exact ⟨indexId, valueId, storeId, stands, suitable, rfl, rfl⟩
      · cases found
    · cases found
  · rintro ⟨indexId, valueId, storeId, stands, suitable, helper, nodes⟩
    have window := window_stands stands
    simp only [List.length_cons, List.length_nil, Nat.zero_add, Nat.reduceAdd] at window
    obtain ⟨_, index, value, _⟩ := site
    cases helper
    cases nodes
    simp_all [plainStore?]

/-- A store is found exactly where one of the three store shapes stands. -/
theorem store?_eq_some :
    store? code id field kind className = some site ↔
      ∃ segment, Stands code segment ∧ StoreSegment className field kind site segment ∧
        site.nodes.head? = some id := by
  constructor
  · intro found
    cases kind with
    | int =>
      obtain ⟨indexId, valueId, storeId, stands, suitable, helper, nodes⟩ :=
        plainStore?_eq_some.mp found
      obtain ⟨_, index, value, _⟩ := site
      cases helper
      cases nodes
      cases value with
      | intConst value => exact ⟨_, stands, .int .., rfl⟩
      | _ => cases suitable
    | long =>
      obtain ⟨indexId, valueId, storeId, stands, suitable, helper, nodes⟩ :=
        plainStore?_eq_some.mp found
      obtain ⟨_, index, value, _⟩ := site
      cases helper
      cases nodes
      cases value with
      | longConst value => exact ⟨_, stands, .long .., rfl⟩
      | _ => cases suitable
    | reference =>
      simp only [store?] at found
      unfold stringStore? at found
      split at found
      · rename_i headId head indexId index valueId cipher callId helper flag storeId window
        obtain ⟨stands, start⟩ := stands_of_window window
        cases start
        split at found
        · rename_i fits
          obtain ⟨rfl, own⟩ := fits
          cases found
          exact ⟨_, stands, .string _ _ _ _ _ _ _ _ flag own, rfl⟩
        · cases found
      · cases found
  · rintro ⟨segment, stands, shape, start⟩
    cases shape with
    | int head indexId valueId storeId index value =>
      cases start
      exact plainStore?_eq_some.mpr ⟨indexId, valueId, storeId, stands, rfl, rfl, rfl⟩
    | long head indexId valueId storeId index value =>
      cases start
      exact plainStore?_eq_some.mpr ⟨indexId, valueId, storeId, stands, rfl, rfl, rfl⟩
    | string head indexId valueId callId storeId index cipher helper flag own =>
      cases start
      have window := window_stands stands
      simp only [List.length_cons, List.length_nil, Nat.zero_add, Nat.reduceAdd] at window
      simp [store?, stringStore?, window, own]

end Store

end StaticTable

theorem Cleanup.allocation?_eq_some {isTarget : MemberRef → Bool} {nodes : List NodeId} :
    Cleanup.allocation? code id isTarget = some nodes ↔
      ∃ size kind field newId putId,
        Stands code [(id, .intConst size), (newId, .newArray kind), (putId, .putStatic field)] ∧
          isTarget field = true ∧ nodes = [id, newId, putId] := by
  constructor
  · intro found
    unfold Cleanup.allocation? at found
    split at found
    · rename_i sizeId size newId kind putId field window
      obtain ⟨stands, head⟩ := stands_of_window window
      cases head
      split at found
      · rename_i target
        cases found
        exact ⟨size, kind, field, newId, putId, stands, target, rfl⟩
      · cases found
    · cases found
  · rintro ⟨size, kind, field, newId, putId, stands, target, rfl⟩
    have window := window_stands stands
    simp only [List.length_cons, List.length_nil, Nat.zero_add, Nat.reduceAdd] at window
    simp [Cleanup.allocation?, window, target]

/-! ### Segments of these shapes lie apart -/

section Apart

variable {segment segment' : List (NodeId × Instruction)}

/-- A segment that starts inside another one starts where it does if only the
first node of that one could be a start. -/
theorem prefix_of_overlaps {head head' : NodeId × Instruction}
    {rest rest' : List (NodeId × Instruction)} (mark : Instruction → Prop)
    (overlap : Overlaps (head :: rest) (head' :: rest')) (marked : mark head'.2)
    (unmarked : ∀ entry ∈ rest, ¬ mark entry.2) :
    head :: rest <+: head' :: rest' ∨ head' :: rest' <+: head :: rest := by
  obtain ⟨front, back, whole, nonempty, agree⟩ := overlap
  cases front with
  | nil =>
    rw [List.nil_append] at whole
    exact whole ▸ agree
  | cons entry front =>
    cases whole
    cases back with
    | nil => exact absurd rfl nonempty
    | cons start back =>
      have same : start = head' := by
        rcases agree with agree | agree
        · exact (List.cons_prefix_cons.mp agree).1
        · exact (List.cons_prefix_cons.mp agree).1.symm
      exact absurd (same ▸ marked) (unmarked start (by simp))

/-- A segment that starts inside another one either starts at its last node or
has its own second node there too. -/
theorem second_of_overlaps {first second : NodeId × Instruction}
    {rest : List (NodeId × Instruction)} (overlap : Overlaps segment (first :: second :: rest)) :
    segment.getLast? = some first ∨ second ∈ segment := by
  obtain ⟨front, back, rfl, nonempty, agree⟩ := overlap
  match back with
  | [] => exact absurd rfl nonempty
  | [only] =>
    left
    have same : only = first := by
      rcases agree with agree | agree
      · exact (List.cons_prefix_cons.mp agree).1
      · exact (List.cons_prefix_cons.mp agree).1.symm
    simp [same]
  | start :: following :: back =>
    right
    have same : following = second := by
      rcases agree with agree | agree
      · exact (List.cons_prefix_cons.mp (List.cons_prefix_cons.mp agree).2).1
      · exact (List.cons_prefix_cons.mp (List.cons_prefix_cons.mp agree).2).1.symm
    simp [same]

theorem apart_of_stands (first : Stands code segment) (second : Stands code segment')
    (forward : ¬ Overlaps segment segment') (backward : ¬ Overlaps segment' segment) :
    ∀ entry ∈ segment, entry.1 ∉ segment'.map (·.1) := by
  obtain ⟨_, _, split⟩ := first
  obtain ⟨_, _, split'⟩ := second
  rcases apart_or_overlaps split split' with apart | overlap | overlap
  · exact apart
  · exact absurd overlap forward
  · exact absurd overlap backward

namespace StaticTable

def IsTableRead (instruction : Instruction) : Prop := ∃ field, instruction = .getStatic field

variable {field field' : MemberRef} {index index' : Int32}

/-- No store is a proper beginning of another one. -/
private theorem ConstantStore.eq_of_prefix (first : ConstantStore field index segment)
    (second : ConstantStore field' index' segment') (agree : segment <+: segment') :
    segment = segment' := by
  cases first <;> cases second <;> simp [List.cons_prefix_cons] at agree <;> simp [agree]

/-- Two stores share no node unless they are the same store. -/
theorem stores_apart_or_same (first : Stands code segment)
    (shape : ConstantStore field index segment) (second : Stands code segment')
    (shape' : ConstantStore field' index' segment') :
    (∀ entry ∈ segment, entry.1 ∉ segment'.map (·.1)) ∨ segment = segment' := by
  obtain ⟨_, _, split⟩ := first
  obtain ⟨_, _, split'⟩ := second
  have collapse {one two : List (NodeId × Instruction)} {f f' : MemberRef} {i i' : Int32}
      (left : ConstantStore f i one) (right : ConstantStore f' i' two)
      (overlap : Overlaps one two) : one = two := by
    obtain ⟨head, rest, rfl, unmarked⟩ := left.head
    obtain ⟨head', rest', rfl, _⟩ := right.head
    have agree := prefix_of_overlaps IsTableRead overlap ⟨_, rfl⟩
      fun entry member ⟨target, equal⟩ => unmarked entry member target equal
    rcases agree with agree | agree
    · exact left.eq_of_prefix right agree
    · exact (right.eq_of_prefix left agree).symm
  rcases apart_or_overlaps split split' with apart | overlap | overlap
  · exact .inl apart
  · exact .inr (collapse shape shape' overlap)
  · exact .inr (collapse shape' shape overlap).symm

/-- A store shares no node with a read. -/
theorem store_apart_from_read (store : Stands code segment)
    (shape : ConstantStore field index segment) {loadKind : ElementKind}
    {indexId loadId : NodeId}
    (read : Stands code
      [(id, .getStatic field'), (indexId, .intConst index'), (loadId, .arrayLoad loadKind)]) :
    ∀ entry ∈ segment, entry.1 ∉ [id, indexId, loadId] := by
  have differ : ¬ (segment <+: [(id, .getStatic field'), (indexId, .intConst index'),
        (loadId, .arrayLoad loadKind)] ∨
      [(id, .getStatic field'), (indexId, .intConst index'),
        (loadId, .arrayLoad loadKind)] <+: segment) := by
    rintro (agree | agree)
    · have short := agree.length_le
      cases shape <;> simp at short
    · exact (shape.foreign (loadId, .arrayLoad loadKind) (agree.subset (by simp))).1 loadKind rfl
  refine apart_of_stands store read ?_ ?_
  · intro overlap
    obtain ⟨head, rest, rfl, unmarked⟩ := shape.head
    exact differ (prefix_of_overlaps IsTableRead overlap ⟨_, rfl⟩
      fun entry member ⟨target, equal⟩ => unmarked entry member target equal)
  · intro overlap
    obtain ⟨head, rest, rfl, _⟩ := shape.head
    refine differ (prefix_of_overlaps IsTableRead overlap ⟨_, rfl⟩ ?_).symm
    simp [IsTableRead]

/-- A store shares no node with an allocation. -/
theorem store_apart_from_allocation (store : Stands code segment)
    (shape : ConstantStore field index segment) {size : Int32}
    {newId putId : NodeId} {array : ArrayKind}
    (allocation : Stands code
      [(id, .intConst size), (newId, .newArray array), (putId, .putStatic field')]) :
    ∀ entry ∈ segment, entry.1 ∉ [id, newId, putId] := by
  refine apart_of_stands store allocation ?_ ?_
  · -- the constant in front of a new array is neither the last node of a store
    -- nor followed by one of its nodes
    intro overlap
    rcases second_of_overlaps overlap with last | inside
    · cases shape <;> simp at last
    · exact (shape.foreign (newId, .newArray array) inside).2 array rfl
  · intro overlap
    obtain ⟨head, rest, rfl, _⟩ := shape.head
    have agree := prefix_of_overlaps IsTableRead overlap ⟨_, rfl⟩ (by simp [IsTableRead])
    simp [List.cons_prefix_cons] at agree

end StaticTable

/-- Two allocations share no node unless they are the same allocation. -/
theorem Cleanup.allocations_apart_or_same {id' newId newId' putId putId' : NodeId}
    {size size' : Int32} {kind kind' : ArrayKind} {field field' : MemberRef}
    (first : Stands code
      [(id, .intConst size), (newId, .newArray kind), (putId, .putStatic field)])
    (second : Stands code
      [(id', .intConst size'), (newId', .newArray kind'), (putId', .putStatic field')]) :
    (∀ node ∈ [id, newId, putId], node ∉ [id', newId', putId']) ∨
      (id = id' ∧ newId = newId' ∧ putId = putId') := by
  have collapse {one two three one' two' three' : NodeId} {n n' : Int32} {k k' : ArrayKind}
      {f f' : MemberRef}
      (overlap : Overlaps
        [(one, Instruction.intConst n), (two, .newArray k), (three, .putStatic f)]
        [(one', .intConst n'), (two', .newArray k'), (three', .putStatic f')]) :
      one = one' ∧ two = two' ∧ three = three' := by
    have agree := prefix_of_overlaps (fun instruction => ∃ size, instruction = .intConst size)
      overlap ⟨n', rfl⟩ (by simp)
    simp only [List.cons_prefix_cons, Prod.mk.injEq] at agree
    rcases agree with ⟨first, second, third, _⟩ | ⟨first, second, third, _⟩
    · exact ⟨first.1, second.1, third.1⟩
    · exact ⟨first.1.symm, second.1.symm, third.1.symm⟩
  obtain ⟨_, _, split⟩ := first
  obtain ⟨_, _, split'⟩ := second
  rcases apart_or_overlaps split split' with apart | overlap | overlap
  · left
    simpa using apart
  · exact .inr (collapse overlap)
  · obtain ⟨rfl, rfl, rfl⟩ := collapse overlap
    exact .inr ⟨rfl, rfl, rfl⟩

end Apart

end LiteralRecovery
