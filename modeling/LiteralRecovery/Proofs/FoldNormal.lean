import LiteralRecovery.Proofs.PassRun

/-! Folding as rewriting of instruction sequences. Two places to fold never
overlap, so the order of folds does not matter: whatever a sequence can be
folded to, if no operation of that width is left in it, is what a folding pass
arrives at. The postfix code of a constant expression folds to its value. -/
namespace LiteralRecovery

namespace Fold

variable {width : Width} {mode : LongFold} {before after : List Instruction}

/-- One fold inside a sequence of instructions. -/
inductive Rewrites (width : Width) (mode : LongFold) :
    List Instruction → List Instruction → Prop where
  | fold (front back : List Instruction) {op : BitwiseOp} {first second value : Instruction}
      (valued : value? width mode op first second = some value) :
      Rewrites width mode (front ++ [first, second, .bitwise width op] ++ back)
        (front ++ [value] ++ back)

theorem operands_of_value {op : BitwiseOp} {first second value : Instruction}
    (valued : value? width mode op first second = some value) :
    StaticTable.isConstant first = true ∧ StaticTable.isConstant second = true := by
  cases width <;> cases first <;> cases second <;> cases valued <;> exact ⟨rfl, rfl⟩

/-- A second fold further on in the sequence is still there once the first is
made. -/
private theorem diamond_of_front (front : List Instruction)
    {middle back back' : List Instruction} {op op' : BitwiseOp}
    {first second value first' second' value' : Instruction}
    (valued : value? width mode op first second = some value)
    (valued' : value? width mode op' first' second' = some value')
    (same : [first, second, .bitwise width op] ++ back =
      middle ++ ([first', second', .bitwise width op'] ++ back')) :
    (middle = [] ∧ value = value' ∧ back = back') ∨
      ∃ joint, Rewrites width mode (front ++ [value] ++ back) joint ∧
        Rewrites width mode (front ++ middle ++ [value'] ++ back') joint := by
  have operands := operands_of_value valued'
  match middle with
  | [] =>
    left
    simp only [List.cons_append, List.nil_append, List.cons.injEq, Instruction.bitwise.injEq,
      true_and] at same
    obtain ⟨rfl, rfl, rfl, rfl⟩ := same
    exact ⟨rfl, Option.some.inj (valued.symm.trans valued'), rfl⟩
  | [one] =>
    simp only [List.cons_append, List.nil_append, List.cons.injEq] at same
    obtain ⟨_, _, rfl, _⟩ := same
    cases operands.2
  | [one, two] =>
    simp only [List.cons_append, List.nil_append, List.cons.injEq] at same
    obtain ⟨_, _, rfl, _⟩ := same
    cases operands.1
  | one :: two :: three :: middle =>
    right
    simp only [List.cons_append, List.nil_append, List.cons.injEq] at same
    obtain ⟨rfl, rfl, rfl, rfl⟩ := same
    refine ⟨front ++ [value] ++ middle ++ [value'] ++ back', ?_, ?_⟩
    · simpa using Rewrites.fold (front ++ [value] ++ middle) back' valued'
    · simpa using Rewrites.fold front (middle ++ [value'] ++ back') valued

theorem rewrites_diamond {start left right : List Instruction}
    (one : Rewrites width mode start left) (two : Rewrites width mode start right) :
    left = right ∨ ∃ joint, Rewrites width mode left joint ∧ Rewrites width mode right joint := by
  cases one with
  | @fold front back op first second value valued =>
    generalize whole : front ++ [first, second, .bitwise width op] ++ back = start at two
    cases two with
    | @fold front' back' op' first' second' value' valued' =>
      rw [List.append_assoc, List.append_assoc] at whole
      rcases List.append_eq_append_iff.mp whole with ⟨middle, rfl, same⟩ | ⟨middle, rfl, same⟩
      · rcases diamond_of_front front valued valued' same with
          ⟨rfl, rfl, rfl⟩ | ⟨joint, one, two⟩
        · exact .inl (by simp)
        · exact .inr ⟨joint, one, two⟩
      · rcases diamond_of_front front' valued' valued same with
          ⟨rfl, rfl, rfl⟩ | ⟨joint, one, two⟩
        · exact .inl (by simp)
        · exact .inr ⟨joint, two, one⟩

theorem not_rewrites_of_absent {sequence : List Instruction}
    (absent : ∀ op, .bitwise width op ∉ sequence) (next : List Instruction) :
    ¬ Rewrites width mode sequence next := by
  intro rewrites
  cases rewrites with
  | @fold front back op first second value valued => exact absent op (by simp)

/-- A sequence that nothing can be folded in is the only one of its kind that
folding leads to. -/
theorem rewrites_unique {start left right : List Instruction}
    (one : Relation.ReflTransGen (Rewrites width mode) start left)
    (two : Relation.ReflTransGen (Rewrites width mode) start right)
    (still : ∀ next, ¬ Rewrites width mode left next)
    (still' : ∀ next, ¬ Rewrites width mode right next) : left = right := by
  have stays {sequence final : List Instruction}
      (still : ∀ next, ¬ Rewrites width mode sequence next)
      (chain : Relation.ReflTransGen (Rewrites width mode) sequence final) : sequence = final := by
    rcases chain.cases_head with same | ⟨next, rewrites, _⟩
    · exact same
    · exact absurd rewrites (still next)
  obtain ⟨joint, leads, leads'⟩ := Relation.church_rosser (fun start left right one two => by
    rcases rewrites_diamond one two with rfl | ⟨joint, left', right'⟩
    · exact ⟨left, .refl, .refl⟩
    · exact ⟨joint, .single left', .single right'⟩) one two
  rw [stays still leads, stays still' leads']

theorem rewrites_within {inner inner' : List Instruction} (front back : List Instruction)
    (chain : Relation.ReflTransGen (Rewrites width mode) inner inner') :
    Relation.ReflTransGen (Rewrites width mode) (front ++ inner ++ back)
      (front ++ inner' ++ back) := by
  apply chain.lift (front ++ · ++ back)
  intro start next rewrites
  cases rewrites with
  | @fold front' back' op first second value valued =>
    simpa [Function.onFun] using Rewrites.fold (front ++ front') (back' ++ back) valued

/-! ### Listings -/

variable {code later : Listing Instruction}

theorem rewrites_of_changes (changed : Changes (step width mode) code later) :
    Rewrites width mode code.toList later.toList := by
  obtain ⟨id, changed⟩ := changed
  obtain ⟨first, second, secondId, opId, op, value, ⟨front, back, split⟩, valued, rfl⟩ :=
    step_eq_change.mp changed
  have view := Listing.items_collapse value split
  simp only [List.map_cons, List.map_nil] at view
  simpa [Listing.toList, split, view] using
    Rewrites.fold (front.map (·.2)) (back.map (·.2)) valued

theorem not_rewrites_of_still
    (still : ∀ id ∈ code.ids, step width mode code id = .skip) (next : List Instruction) :
    ¬ Rewrites width mode code.toList next := by
  intro rewrites
  generalize view : code.toList = sequence at rewrites
  cases rewrites with
  | @fold front back op first second value valued =>
    obtain ⟨segment, stands, contents⟩ := stands_of_toList view
    obtain ⟨id, secondId, opId, rfl⟩ := segment_of_three contents
    have changed := step_eq_change.mpr ⟨_, _, _, _, _, _, stands, valued, rfl⟩
    have live := Listing.isLive_iff.mpr ⟨_, stands_live stands (id, _) List.mem_cons_self⟩
    rw [still id (Listing.mem_ids.mpr live)] at changed
    cases changed

/-- What the initializer can be folded to, with no operation of the width left,
is what a pass makes of it. -/
theorem fold_run_toList {options : Options} {state : RecoveryState} {target : List Instruction}
    (chain : Relation.ReflTransGen (Rewrites width options.longFold)
      state.initializerCode.toList target)
    (absent : ∀ op, .bitwise width op ∉ target) :
    ((Pass.fold width).run options state).1.initializerCode.toList = target := by
  have reached := Pass.fold_run_reaches width options state
  refine rewrites_unique (reached.lift Listing.toList fun _ _ => rewrites_of_changes) chain
    (not_rewrites_of_still (Pass.fold_run_still width options state))
    (not_rewrites_of_absent absent)

end Fold

/-! ### Constant expressions -/

namespace Width

/-- The constants of a width. -/
@[reducible] def Value : Width → Type
  | .int => Int32
  | .long => Int64

def constant : (width : Width) → width.Value → Instruction
  | .int, value => .intConst value
  | .long, value => .longConst value

def combine : (width : Width) → BitwiseOp → width.Value → width.Value → width.Value
  | .int, op, left, right => op.onInt left right
  | .long, op, left, right => op.onLong left right

/-- What two constants are folded to: in the legacy mode, a long operation is
applied to the first one twice. -/
def fold (mode : LongFold) : (width : Width) → BitwiseOp → width.Value → width.Value → width.Value
  | .int, op, left, right => op.onInt left right
  | .long, op, left, right => op.onLong left (if mode = .legacy then left else right)

end Width

/-- A bitwise expression over constants. -/
inductive Expr (width : Width) where
  | constant (value : width.Value)
  | combine (op : BitwiseOp) (left right : Expr width)

namespace Expr

variable {width : Width}

def eval : Expr width → width.Value
  | .constant value => value
  | .combine op left right => width.combine op left.eval right.eval

/-- The value of an expression in a folding mode. -/
def evalIn (mode : LongFold) : Expr width → width.Value
  | .constant value => value
  | .combine op left right => width.fold mode op (left.evalIn mode) (right.evalIn mode)

theorem evalIn_combine (expr : Expr width) : expr.evalIn .combine = expr.eval := by
  induction expr with
  | constant value => rfl
  | combine op left right ihLeft ihRight =>
    rw [evalIn, eval, ihLeft, ihRight]
    cases width <;> rfl

/-- The expression in postfix order. -/
def code : Expr width → List Instruction
  | .constant value => [width.constant value]
  | .combine op left right => left.code ++ right.code ++ [.bitwise width op]

theorem value_fold (mode : LongFold) (op : BitwiseOp) (left right : width.Value) :
    Fold.value? width mode op (width.constant left) (width.constant right) =
      some (width.constant (width.fold mode op left right)) := by
  cases width <;> rfl

theorem code_folds_in (mode : LongFold) (expr : Expr width) :
    Relation.ReflTransGen (Fold.Rewrites width mode) expr.code
      [width.constant (expr.evalIn mode)] := by
  induction expr with
  | constant value => exact .refl
  | combine op left right ihLeft ihRight =>
    have first := Fold.rewrites_within [] (right.code ++ [.bitwise width op]) ihLeft
    have second := Fold.rewrites_within [width.constant (left.evalIn mode)] [.bitwise width op]
      ihRight
    have last := Fold.Rewrites.fold [] []
      (value_fold mode op (left.evalIn mode) (right.evalIn mode))
    simp only [List.nil_append, List.cons_append] at first
    simp only [List.cons_append, List.nil_append] at second last
    simp only [code, List.append_assoc]
    exact (first.trans second).tail last

theorem code_folds (expr : Expr width) :
    Relation.ReflTransGen (Fold.Rewrites width .combine) expr.code [width.constant expr.eval] := by
  rw [← evalIn_combine]
  exact expr.code_folds_in .combine

theorem mem_code {instruction : Instruction} {expr : Expr width}
    (member : instruction ∈ expr.code) :
    (∃ value, instruction = width.constant value) ∨ ∃ op, instruction = .bitwise width op := by
  induction expr with
  | constant value => exact .inl ⟨value, List.mem_singleton.mp member⟩
  | combine op left right ihLeft ihRight =>
    simp only [code, List.mem_append, List.mem_singleton] at member
    rcases member with (inLeft | inRight) | rfl
    · exact ihLeft inLeft
    · exact ihRight inRight
    · exact .inr ⟨op, rfl⟩

end Expr

end LiteralRecovery
