import LiteralRecovery.Proofs.TableStep

/-! Accesses to tables that do not nest. An access names a table, pushes
operands and ends with an array load or store. While no table is named inside
an unfinished access, taking one access out, or putting a constant in its
place, neither brings up nor breaks another one: what else stands in the code
stands there before and after. -/
namespace LiteralRecovery.StaticTable

open Listing

/-- Whether an instruction does nothing but push a constant or combine what was
pushed. -/
def isOperand : Instruction → Bool
  | .bitwise _ _ | .invokeStatic _ _ => true
  | other => isConstant other

/-- Whether an instruction names a table of the class. -/
def namesTable (className : String) : Instruction → Bool
  | .getStatic field => field.owner = className
  | _ => false

/-- Whether a table is pending behind an instruction: it was named, and only
operands have followed. -/
def pends (className : String) (pending : Bool) (held : Instruction) : Bool :=
  namesTable className held || (pending && isOperand held)

/-- Whether a table is pending at the end of the code. -/
def pendsAfter (className : String) (pending : Bool) (code : List Instruction) : Bool :=
  code.foldl (pends className) pending

/-- Whether no table is named while another is pending. -/
def namesApart (className : String) : (pending : Bool) → List Instruction → Bool
  | _, [] => true
  | pending, held :: rest =>
    !(pending && namesTable className held) &&
      namesApart className (pends className pending held) rest

/-- Between two instructions that name tables of the class there is always one
that is not an operand. -/
def Unnested (className : String) (code : Listing Instruction) : Prop :=
  namesApart className false code.toList = true

instance (className : String) (code : Listing Instruction) :
    Decidable (Unnested className code) :=
  inferInstanceAs (Decidable (_ = true))

section Pending

variable {className : String} {pending : Bool}

theorem namesTable_of_operand {held : Instruction} (operand : isOperand held = true) :
    namesTable className held = false := by
  cases held with
  | getStatic field => cases operand
  | _ => rfl

theorem isOperand_of_constant {held : Instruction} (constant : isConstant held = true) :
    isOperand held = true := by
  cases held with
  | intConst | longConst | stringConst | nullConst => rfl
  | _ => cases constant

theorem pendsAfter_append (front back : List Instruction) :
    pendsAfter className pending (front ++ back) =
      pendsAfter className (pendsAfter className pending front) back :=
  List.foldl_append

theorem namesApart_append (front back : List Instruction) :
    namesApart className pending (front ++ back) =
      (namesApart className pending front &&
        namesApart className (pendsAfter className pending front) back) := by
  induction front generalizing pending with
  | nil => rfl
  | cons held front ih =>
    simp only [List.cons_append, namesApart, ih, Bool.and_assoc]
    rfl

/-- Operands leave a table pending or not pending as it was. -/
theorem pendsAfter_operands {code : List Instruction}
    (operands : ∀ held ∈ code, isOperand held = true) :
    pendsAfter className pending code = pending := by
  induction code generalizing pending with
  | nil => rfl
  | cons held rest ih =>
    have here := operands held List.mem_cons_self
    have step : pends className pending held = pending := by
      simp [pends, namesTable_of_operand here, here]
    simpa only [pendsAfter, List.foldl_cons, step] using
      ih fun other member => operands other (List.mem_cons_of_mem _ member)

theorem namesApart_operands {code : List Instruction}
    (operands : ∀ held ∈ code, isOperand held = true) :
    namesApart className pending code = true := by
  induction code generalizing pending with
  | nil => rfl
  | cons held rest ih =>
    have here := operands held List.mem_cons_self
    simp only [namesApart, namesTable_of_operand here, Bool.and_false, Bool.not_false,
      Bool.true_and]
    exact ih fun other member => operands other (List.mem_cons_of_mem _ member)

/-- A table stays pending as long as operands follow it. -/
theorem pendsAfter_of_open {front rest : List Instruction} {head : Instruction}
    (named : namesTable className head = true) (operands : ∀ held ∈ rest, isOperand held = true) :
    pendsAfter className pending (front ++ head :: rest) = true := by
  have here (before : Bool) : pendsAfter className before (head :: rest) =
      pendsAfter className (pends className before head) rest := rfl
  rw [pendsAfter_append, here, pendsAfter_operands operands, pends, named, Bool.true_or]

end Pending

/-! ### Accesses -/

/-- The nodes of an access to a table of the class. -/
inductive Access (className : String) : List (NodeId × Instruction) → Prop where
  | intro (head : NodeId × Instruction) (operands : List (NodeId × Instruction))
      (last : NodeId × Instruction) (named : namesTable className head.2 = true)
      (pushed : ∀ entry ∈ operands, isOperand entry.2 = true)
      (taken : isOperand last.2 = false) (other : namesTable className last.2 = false) :
      Access className (head :: (operands ++ [last]))

section Accesses

variable {className : String} {segment segment' : List (NodeId × Instruction)}
variable {before middle after : List (NodeId × Instruction)}
variable {code code' : Listing Instruction}

theorem access_of_read {field : MemberRef} {index : Int32} {kind : ElementKind}
    {head indexId loadId : NodeId} (own : field.owner = className) :
    Access className
      [(head, .getStatic field), (indexId, .intConst index), (loadId, .arrayLoad kind)] :=
  .intro _ [(indexId, .intConst index)] (loadId, .arrayLoad kind) (by simp [namesTable, own])
    (List.forall_mem_singleton.mpr rfl) rfl rfl

theorem access_of_store {field : MemberRef} {index : Int32} (own : field.owner = className)
    (shape : ConstantStore field index segment) : Access className segment := by
  cases shape with
  | direct head indexId valueId storeId value kind constant =>
    exact .intro _ [(indexId, .intConst index), (valueId, value)] (storeId, .arrayStore kind)
      (by simp [namesTable, own])
      (by simpa using ⟨rfl, isOperand_of_constant constant⟩) rfl rfl
  | through head indexId valueId callId storeId value helper onInterface kind constant =>
    exact .intro _
      [(indexId, .intConst index), (valueId, value), (callId, .invokeStatic helper onInterface)]
      (storeId, .arrayStore kind) (by simp [namesTable, own])
      (by simpa using ⟨rfl, isOperand_of_constant constant, rfl⟩) rfl rfl

/-- Only the first node of an access names a table. -/
theorem Access.head (access : Access className segment) :
    ∃ head rest, segment = head :: rest ∧ namesTable className head.2 = true ∧
      ∀ entry ∈ rest, namesTable className entry.2 = false := by
  obtain ⟨head, operands, last, named, pushed, taken, other⟩ := access
  refine ⟨head, _, rfl, named, fun entry member => ?_⟩
  rcases List.mem_append.mp member with inside | final
  · exact namesTable_of_operand (pushed entry inside)
  · rw [List.mem_singleton.mp final, other]

/-- What starts an access decides the whole of it. -/
theorem Access.unique {head : NodeId × Instruction} {rest rest' tail tail' : List _}
    (access : Access className (head :: rest)) (access' : Access className (head :: rest'))
    (same : rest ++ tail = rest' ++ tail') : rest = rest' := by
  have first {entries front behind : List (NodeId × Instruction)}
      (found : Access className (head :: entries)) (whole : front = entries ++ behind) :
      ∃ last, entries = front.takeWhile (fun entry => isOperand entry.2) ++ [last] ∧
        front[(front.takeWhile fun entry => isOperand entry.2).length]? = some last := by
    cases found with
    | intro _ operands last _ pushed taken _ =>
      have operandsOnly : front.takeWhile (fun entry => isOperand entry.2) = operands := by
        rw [whole, List.append_assoc, List.takeWhile_append_of_pos pushed]
        simp [taken]
      rw [operandsOnly]
      exact ⟨last, rfl, by simp [whole]⟩
  obtain ⟨last, whole, ends⟩ := first access rfl
  obtain ⟨last', whole', ends'⟩ := first access' same
  rw [ends] at ends'
  cases ends'
  rw [whole, whole']

/-- Before an access no table is pending. -/
theorem Access.not_pending (access : Access className segment) (unnested : Unnested className code)
    (split : code.items = before ++ segment ++ after) :
    pendsAfter className false (before.map (·.2)) = false := by
  obtain ⟨head, rest, rfl, named, _⟩ := access.head
  have apart : namesApart className false (code.items.map (·.2)) = true := unnested
  rw [split, List.map_append, List.map_append, List.append_assoc, namesApart_append,
    Bool.and_eq_true] at apart
  simp only [List.map_cons, List.cons_append, namesApart, named, Bool.and_true,
    Bool.and_eq_true, Bool.not_eq_true'] at apart
  exact apart.2.1

/-- Code behind which no table is pending is not entered by an access from
before: an access that starts outside the middle lies on one side of it. -/
theorem Access.beside (access : Access className segment)
    (settled : pendsAfter className false (before.map (·.2)) = false)
    (unnamed : ∀ entry ∈ middle, segment.head? ≠ some entry)
    {front back : List (NodeId × Instruction)}
    (split : before ++ middle ++ after = front ++ segment ++ back) :
    segment <:+: before ∨ segment <:+: after := by
  obtain ⟨head, operands, last, named, pushed, taken, other⟩ := access
  rw [List.append_assoc, List.append_assoc] at split
  rcases List.append_eq_append_iff.mp split with ⟨gap, rfl, tail⟩ | ⟨gap, rfl, tail⟩
  · -- the access starts behind `before`, so behind the middle
    rcases List.append_eq_append_iff.mp tail with ⟨more, rfl, behind⟩ | ⟨more, rfl, behind⟩
    · exact .inr ⟨more, back, by rw [behind, List.append_assoc]⟩
    · cases more with
      | nil => exact .inr ⟨[], back, by simpa using behind⟩
      | cons entry more =>
        obtain rfl : head = entry := (List.cons.inj behind).1
        exact absurd rfl (unnamed head (by simp))
  · cases gap with
    | nil =>
      -- the access starts right at the middle, which holds no start
      cases middle with
      | nil => exact .inr ⟨[], back, by simpa using tail⟩
      | cons entry middle =>
        obtain rfl : head = entry := (List.cons.inj tail).1
        exact absurd rfl (unnamed head List.mem_cons_self)
    | cons entry gap =>
      obtain ⟨rfl, inner⟩ : head = entry ∧ (operands ++ [last]) ++ back = gap ++ (middle ++ after) :=
        List.cons.inj tail
      rcases List.append_eq_append_iff.mp inner with ⟨more, rfl, _⟩ | ⟨more, whole, _⟩
      · exact .inl ⟨front, more, by simp⟩
      · rcases List.eq_nil_or_concat more with rfl | ⟨more, final, rfl⟩
        · exact .inl ⟨front, [], by simp [show gap = _ from by simpa using whole.symm]⟩
        · -- the table would still be pending at the end of `before`
          have within : operands = gap ++ more := by
            rw [List.concat_eq_append, ← List.append_assoc] at whole
            exact (List.append_inj' whole rfl).1
          rw [List.map_append, List.map_cons, pendsAfter_of_open named] at settled
          · cases settled
          · intro held member
            obtain ⟨entry, inside, rfl⟩ := List.mem_map.mp member
            exact pushed entry (by simp [within, inside])

/-- No table is pending behind an access. -/
theorem Access.pendsAfter (access : Access className segment) (pending : Bool) :
    pendsAfter className pending (segment.map (·.2)) = false := by
  obtain ⟨head, operands, last, _, _, taken, other⟩ := access
  have whole : (head :: (operands ++ [last])).map (·.2) =
      (head :: operands).map (·.2) ++ [last.2] := by simp
  rw [whole, pendsAfter_append]
  simp [StaticTable.pendsAfter, pends, taken, other]

/-- One segment of the code has been taken out or replaced by constants. -/
def Trades (segment : List (NodeId × Instruction)) (code code' : Listing Instruction) : Prop :=
  ∃ before middle after, code.items = before ++ segment ++ after ∧
    code'.items = before ++ middle ++ after ∧ ∀ entry ∈ middle, isConstant entry.2 = true

theorem trades_removeAll (stands : Stands code segment) :
    Trades segment code (code.removeAll (segment.map (·.1))) := by
  obtain ⟨before, after, split⟩ := stands
  refine ⟨before, [], after, split, ?_, by simp⟩
  rw [items_removeAll_segment split, List.append_nil]

theorem trades_collapse {id : NodeId} {content value : Instruction}
    {rest : List (NodeId × Instruction)} (stands : Stands code ((id, content) :: rest))
    (constant : isConstant value = true) :
    Trades ((id, content) :: rest) code ((code.removeAll (rest.map (·.1))).replace id value) := by
  obtain ⟨before, after, split⟩ := stands
  refine ⟨before, [(id, value)], after, split, ?_, by simpa using constant⟩
  simpa using items_collapse value split

/-- An instruction that is no constant was there before. -/
theorem Trades.mem_toList (trades : Trades segment code code') {held : Instruction}
    (present : held ∈ code'.toList) (other : isConstant held = false) : held ∈ code.toList := by
  obtain ⟨before, middle, after, split, split', constants⟩ := trades
  obtain ⟨entry, member, rfl⟩ := List.mem_map.mp present
  refine List.mem_map.mpr ⟨entry, ?_, rfl⟩
  rw [split', List.mem_append, List.mem_append] at member
  rw [split, List.mem_append, List.mem_append]
  rcases member with (early | inside) | late
  · exact .inl (.inl early)
  · rw [constants entry inside] at other
    cases other
  · exact .inr late

/-- Tables stay apart where an access, or operands, are traded for constants. -/
theorem Trades.unnested (trades : Trades segment code code')
    (whole : Access className segment ∨ ∀ entry ∈ segment, isOperand entry.2 = true)
    (unnested : Unnested className code) : Unnested className code' := by
  obtain ⟨before, middle, after, split, split', constants⟩ := trades
  have operandsOnly {entries : List (NodeId × Instruction)}
      (operands : ∀ entry ∈ entries, isOperand entry.2 = true) :
      ∀ held ∈ entries.map (·.2), isOperand held = true := by
    intro held member
    obtain ⟨entry, inside, rfl⟩ := List.mem_map.mp member
    exact operands entry inside
  have calm := operandsOnly fun entry member => isOperand_of_constant (constants entry member)
  have behind : pendsAfter className (pendsAfter className false (before.map (·.2)))
      (segment.map (·.2)) = pendsAfter className false (before.map (·.2)) := by
    rcases whole with access | operands
    · rw [access.pendsAfter, access.not_pending unnested split]
    · exact pendsAfter_operands (operandsOnly operands)
  have apart : namesApart className false (code.items.map (·.2)) = true := unnested
  change namesApart className false (code'.items.map (·.2)) = true
  rw [split, List.map_append, List.map_append, namesApart_append, namesApart_append,
    pendsAfter_append, behind, Bool.and_eq_true, Bool.and_eq_true] at apart
  rw [split', List.map_append, List.map_append, namesApart_append, namesApart_append,
    pendsAfter_append, pendsAfter_operands calm, namesApart_operands calm, apart.1.1, apart.2]
  rfl

/-- Of the accesses, exactly the one that is traded goes, and none comes. -/
theorem Trades.stands_iff (trades : Trades segment code code')
    (access : Access className segment) (unnested : Unnested className code)
    (access' : Access className segment') :
    Stands code' segment' ↔ Stands code segment' ∧ segment' ≠ segment := by
  obtain ⟨before, middle, after, split, split', constants⟩ := trades
  have settled := access.not_pending unnested split
  obtain ⟨head, rest, rfl, named, unnamed⟩ := access.head
  obtain ⟨head', rest', rfl, named', unnamed'⟩ := access'.head
  constructor
  · rintro ⟨front, back, found⟩
    have outside : ∀ entry ∈ middle, (head' :: rest').head? ≠ some entry := by
      rintro entry member same
      cases same
      rw [namesTable_of_operand (isOperand_of_constant (constants head' member))] at named'
      cases named'
    obtain ⟨apartBefore, apartAfter⟩ := split_disjoint split
    have differs {entries : List (NodeId × Instruction)} (inside : head' :: rest' <:+: entries)
        (apart : ∀ entry ∈ entries, entry.1 ∉ (head :: rest).map (·.1)) :
        head' :: rest' ≠ head :: rest := by
      intro same
      refine apart head' (inside.subset List.mem_cons_self) ?_
      simp [(List.cons.inj same).1]
    rcases access'.beside settled outside (split'.symm.trans found) with inside | inside
    · refine ⟨?_, differs inside apartBefore⟩
      obtain ⟨front, back, rfl⟩ := inside
      exact ⟨front, back ++ (head :: rest) ++ after, by rw [split]; simp⟩
    · refine ⟨?_, differs inside apartAfter⟩
      obtain ⟨front, back, rfl⟩ := inside
      exact ⟨before ++ (head :: rest) ++ front, back, by rw [split]; simp⟩
  · rintro ⟨⟨front, back, found⟩, differs⟩
    have outside : ∀ entry ∈ head :: rest, (head' :: rest').head? ≠ some entry := by
      rintro entry member same
      cases same
      rcases List.mem_cons.mp member with rfl | inside
      · -- the same start makes it the same access
        have here : code.items = before ++ (head'.1, head'.2) :: (rest ++ after) := by
          rw [split]; simp
        have there : code.items = front ++ (head'.1, head'.2) :: (rest' ++ back) := by
          rw [found]; simp
        obtain ⟨_, _, tail⟩ := split_unique here there
        exact differs (congrArg _ (access'.unique access tail.symm))
      · rw [unnamed head' inside] at named'
        cases named'
    rcases access'.beside settled outside (split.symm.trans found) with inside | inside
    · obtain ⟨front, back, rfl⟩ := inside
      exact ⟨front, back ++ middle ++ after, by rw [split']; simp⟩
    · obtain ⟨front, back, rfl⟩ := inside
      exact ⟨before ++ middle ++ front, back, by rw [split']; simp⟩

/-- Taking a store out leaves every read as it was. -/
theorem Trades.read?_eq {field : MemberRef} {index : Int32}
    (trades : Trades segment code code') (own : field.owner = className)
    (shape : ConstantStore field index segment) (unnested : Unnested className code)
    (id : NodeId) (kind : ElementKind) :
    read? code' id className kind = read? code id className kind := by
  have access := access_of_store own shape
  refine Option.ext fun site => ?_
  rw [read?_eq_some, read?_eq_some]
  constructor
  · rintro ⟨indexId, loadId, stands, owner, tail⟩
    have before := (trades.stands_iff access unnested (access_of_read owner)).mp stands
    exact ⟨indexId, loadId, before.1, owner, tail⟩
  · rintro ⟨indexId, loadId, stands, owner, tail⟩
    refine ⟨indexId, loadId, ?_, owner, tail⟩
    refine (trades.stands_iff access unnested (access_of_read owner)).mpr ⟨stands, ?_⟩
    rintro rfl
    cases shape

/-- A trade that is not of a store of the slot leaves the first store of the
slot as it was. -/
theorem Trades.storeAt?_eq {field : MemberRef} {index : Int32} {kind : ElementKind}
    (trades : Trades segment code code') (access : Access className segment)
    (unnested : Unnested className code) (own : field.owner = className)
    (elsewhere : ∀ store, StoreSegment className field kind store segment →
      store.index ≠ index) :
    storeAt? code' field index kind className = storeAt? code field index kind className := by
  have each (id : NodeId) (store : StoreSite) (here : store.index = index) :
      store? code' id field kind className = some store ↔
        store? code id field kind className = some store := by
    rw [store?_eq_some, store?_eq_some]
    constructor
    · rintro ⟨found, stands, shape, head⟩
      have access' := access_of_store own shape.constant
      exact ⟨found, ((trades.stands_iff access unnested access').mp stands).1, shape, head⟩
    · rintro ⟨found, stands, shape, head⟩
      have access' := access_of_store own shape.constant
      refine ⟨found, (trades.stands_iff access unnested access').mpr ⟨stands, ?_⟩, shape, head⟩
      rintro rfl
      exact elsewhere store shape here
  refine Option.ext fun store => ?_
  rw [storeAt?_eq_some, storeAt?_eq_some]
  constructor
  · rintro ⟨id, found, here, first⟩
    refine ⟨id, (each id store here).mp found, here, fun earlier below other hit same => ?_⟩
    exact first earlier below other ((each earlier other same).mpr hit) same
  · rintro ⟨id, found, here, first⟩
    refine ⟨id, (each id store here).mpr found, here, fun earlier below other hit same => ?_⟩
    exact first earlier below other ((each earlier other same).mp hit) same

end Accesses

end LiteralRecovery.StaticTable

namespace LiteralRecovery.Fold

open StaticTable

/-- Constants are folded to a constant. -/
theorem constants_of_value? {width : Width} {mode : LongFold} {op : BitwiseOp}
    {first second value : Instruction} (valued : value? width mode op first second = some value) :
    isConstant first = true ∧ isConstant second = true ∧ isConstant value = true := by
  unfold value? at valued
  split at valued
  all_goals
    split at valued
    · cases valued
      exact ⟨rfl, rfl, rfl⟩
    · cases valued

/-- A fold trades an expression for its value. -/
theorem changes_trades {width : Width} {mode : LongFold} {code after : Listing Instruction}
    (changed : Changes (step width mode) code after) :
    ∃ segment, Trades segment code after ∧ ∀ entry ∈ segment, isOperand entry.2 = true := by
  obtain ⟨id, changed⟩ := changed
  obtain ⟨first, second, secondId, opId, op, value, stands, valued, rfl⟩ :=
    step_eq_change.mp changed
  obtain ⟨one, two, result⟩ := constants_of_value? valued
  have traded := trades_collapse stands result
  refine ⟨_, traded, fun entry member => ?_⟩
  simp only [List.mem_cons, List.not_mem_nil, or_false] at member
  rcases member with rfl | rfl | rfl
  · exact isOperand_of_constant one
  · exact isOperand_of_constant two
  · rfl

end LiteralRecovery.Fold
