import LiteralRecovery.Proofs.PassRun
import Mathlib.Data.Set.Basic

/-! Folding and control flow. A machine runs a listing node by node over an
operand stack, and a jump may land wherever its targets lead. A fold takes two
nodes out of the listing; as long as no jump lands on one of them, the machine
arrives at the opaque nodes with the same stacks as before. A jump that does
land there is led past the operation, and then the stacks differ. -/
namespace LiteralRecovery

namespace Machine

/-- An operand: an int, or a value that folding knows nothing about. -/
inductive Cell (β : Type) where
  | int (value : Int32)
  | other (value : β)
deriving DecidableEq

variable {β : Type}

/-- What the instruction at a node does to the stack, wherever the machine does
not compute it itself. -/
abbrev Effect (β : Type) := NodeId → Instruction → List (Cell β) → List (Cell β)

/-- The instructions that the machine computes itself. -/
def computes : Instruction → Bool
  | .intConst _ => true
  | .bitwise .int _ => true
  | _ => false

/-- The instructions that are carried along unread. -/
def isOpaque : Instruction → Bool
  | .plain _ | .jump _ _ => true
  | _ => false

/-- One step from a node and a stack to the next. -/
inductive Step (code : Listing Instruction) (effect : Effect β) :
    NodeId × List (Cell β) → NodeId × List (Cell β) → Prop where
  | push {id following value stack} (held : code.get? id = some (.intConst value))
      (next : code.next id = some following) :
      Step code effect (id, stack) (following, .int value :: stack)
  | combine {id following op left right stack} (held : code.get? id = some (.bitwise .int op))
      (next : code.next id = some following) :
      Step code effect (id, .int right :: .int left :: stack)
        (following, .int (op.onInt left right) :: stack)
  | pass {id following instruction stack} (held : code.get? id = some instruction)
      (foreign : computes instruction = false) (next : code.next id = some following) :
      Step code effect (id, stack) (following, effect id instruction stack)
  | jump {id bytecode targets target landing stack}
      (held : code.get? id = some (.jump bytecode targets)) (named : target ∈ targets)
      (leads : code.resolve target = some landing) :
      Step code effect (id, stack) (landing, effect id (.jump bytecode targets) stack)

/-- The machine, started on the first node with an empty stack, gets here. -/
def Reaches (code : Listing Instruction) (effect : Effect β) (id : NodeId)
    (stack : List (Cell β)) : Prop :=
  ∃ start, code.first = some start ∧
    Relation.ReflTransGen (Step code effect) (start, []) (id, stack)

/-- The opaque nodes that the machine gets to, with the stacks it brings. -/
def arrivals (code : Listing Instruction) (effect : Effect β) : Set (NodeId × List (Cell β)) :=
  {place | Reaches code effect place.1 place.2 ∧
    ∃ instruction, code.get? place.1 = some instruction ∧ isOpaque instruction = true}

/-- Whatever jump of the first listing the machine gets to, the node that it
leads to is a node of the second. -/
def LandsIn (code : Listing Instruction) (effect : Effect β) (later : Listing Instruction) : Prop :=
  ∀ id stack bytecode targets, Reaches code effect id stack →
    code.get? id = some (.jump bytecode targets) →
    ∀ target ∈ targets, ∀ landing, code.resolve target = some landing →
      later.isLive landing = true

variable {code : Listing Instruction} {effect : Effect β} {id other : NodeId}
variable {stack stack' : List (Cell β)}

theorem Reaches.step (reached : Reaches code effect id stack)
    (step : Step code effect (id, stack) (other, stack')) : Reaches code effect other stack' := by
  obtain ⟨start, first, run⟩ := reached
  exact ⟨start, first, run.tail step⟩

theorem LandsIn.earlier {middle final : Listing Instruction} (rest : Listing.Thins middle final)
    (lands : LandsIn code effect final) : LandsIn code effect middle := by
  intro id stack bytecode targets reached held target named landing leads
  exact rest.live landing
    (lands id stack bytecode targets reached held target named landing leads)

theorem computes_of_opaque {instruction : Instruction} (unread : isOpaque instruction = true) :
    computes instruction = false := by
  cases instruction with
  | plain => rfl
  | jump => rfl
  | _ => cases unread

/-- What holds at the start and is kept by every step of a run holds wherever the
machine gets. -/
theorem Reaches.induct (holds : NodeId → List (Cell β) → Prop)
    (start : ∀ id, code.first = some id → holds id [])
    (kept : ∀ id stack other stack', Reaches code effect id stack → holds id stack →
      Step code effect (id, stack) (other, stack') → holds other stack')
    (reached : Reaches code effect id stack) : holds id stack := by
  obtain ⟨first, found, run⟩ := reached
  have both : Reaches code effect id stack ∧ holds id stack := by
    generalize here : (id, stack) = place at run
    induction run generalizing id stack with
    | refl =>
      cases here
      exact ⟨⟨first, found, .refl⟩, start first found⟩
    | @tail place _ run step ih =>
      cases here
      obtain ⟨reached, before⟩ := ih rfl
      exact ⟨reached.step step, kept _ _ _ _ reached before step⟩
  exact both.2

/-! ### Single steps -/

theorem live_of_first (found : code.first = some id) : code.isLive id = true :=
  (Listing.liveFrom_eq_some.mp found).1

theorem live_of_next (found : code.next id = some other) : code.isLive other = true := by
  unfold Listing.next at found
  split at found
  · cases found
  · cases found
  · exact (Listing.liveFrom_eq_some.mp found).1

theorem live_of_resolve (found : code.resolve id = some other) : code.isLive other = true := by
  unfold Listing.resolve at found
  split at found
  · cases found
    assumption
  · exact live_of_next found

/-- The machine only ever stands on live nodes. -/
theorem Reaches.live (reached : Reaches code effect id stack) : code.isLive id = true := by
  refine Reaches.induct (fun id _ => code.isLive id = true) ?_ ?_ reached
  · intro id found
    exact live_of_first found
  · intro id stack other stack' _ _ step
    cases step with
    | push held next => exact live_of_next next
    | combine held next => exact live_of_next next
    | pass held foreign next => exact live_of_next next
    | jump held named leads => exact live_of_resolve leads

theorem step_of_const {value : Int32} (held : code.get? id = some (.intConst value))
    (step : Step code effect (id, stack) (other, stack')) :
    code.next id = some other ∧ stack' = .int value :: stack := by
  cases step with
  | push held' next =>
    cases held.symm.trans held'
    exact ⟨next, rfl⟩
  | combine held' next => cases held.symm.trans held'
  | pass held' foreign next =>
    cases held.symm.trans held'
    cases foreign
  | jump held' named leads => cases held.symm.trans held'

theorem step_of_bitwise {op : BitwiseOp} (held : code.get? id = some (.bitwise .int op))
    (step : Step code effect (id, stack) (other, stack')) :
    ∃ left right rest, stack = .int right :: .int left :: rest ∧ code.next id = some other ∧
      stack' = .int (op.onInt left right) :: rest := by
  cases step with
  | push held' next => cases held.symm.trans held'
  | @combine _ _ _ left right rest held' next =>
    cases held.symm.trans held'
    exact ⟨left, right, rest, rfl, next, rfl⟩
  | pass held' foreign next =>
    cases held.symm.trans held'
    cases foreign
  | jump held' named leads => cases held.symm.trans held'

/-! ### One fold -/

/-- A fold as the two live views show it: two constants and the operation on
them before, and the value in place of the first afterwards. -/
structure Folded (before after : Listing Instruction) where
  front : List (NodeId × Instruction)
  back : List (NodeId × Instruction)
  first : NodeId
  second : NodeId
  last : NodeId
  left : Int32
  right : Int32
  op : BitwiseOp
  split : before.items = front ++ [(first, .intConst left), (second, .intConst right),
    (last, .bitwise .int op)] ++ back
  folded : after.items = front ++ (first, .intConst (op.onInt left right)) :: back
  thins : Listing.Thins before after

variable {before after : Listing Instruction} {mode : LongFold}

theorem exists_folded (changed : Changes (Fold.step .int mode) before after) :
    Nonempty (Folded before after) := by
  have thins := Fold.changes_thin changed
  obtain ⟨id, changed⟩ := changed
  obtain ⟨one, two, secondId, opId, op, value, ⟨front, back, split⟩, valued, same⟩ :=
    Fold.step_eq_change.mp changed
  have view := Listing.items_collapse value split
  unfold Fold.value? at valued
  cases one <;> cases two <;> cases valued
  exact ⟨front, back, id, secondId, opId, _, _, op, split, same ▸ view, thins⟩

namespace Folded

variable (fold : Folded before after)

/-- A node outside of the fold. -/
def Elsewhere (id : NodeId) : Prop := id ≠ fold.first ∧ id ≠ fold.second ∧ id ≠ fold.last

theorem held_first : before.get? fold.first = some (.intConst fold.left) :=
  Listing.mem_items.mp (by simp [fold.split])

theorem held_second : before.get? fold.second = some (.intConst fold.right) :=
  Listing.mem_items.mp (by simp [fold.split])

theorem held_last : before.get? fold.last = some (.bitwise .int fold.op) :=
  Listing.mem_items.mp (by simp [fold.split])

theorem held_value :
    after.get? fold.first = some (.intConst (fold.op.onInt fold.left fold.right)) :=
  Listing.mem_items.mp (by simp [fold.folded])

theorem next_first : before.next fold.first = some fold.second :=
  Listing.next_of_split (by simpa using fold.split)

theorem next_second : before.next fold.second = some fold.last := by
  have here : before.items = (fold.front ++ [(fold.first, .intConst fold.left)]) ++
      (fold.second, .intConst fold.right) :: (fold.last, .bitwise .int fold.op) :: fold.back := by
    simpa using fold.split
  exact Listing.next_of_split here

/-- Behind the operation, the machine goes on where it goes on behind the
value. -/
theorem next_last : before.next fold.last = after.next fold.first := by
  have here : before.items = (fold.front ++ [(fold.first, .intConst fold.left),
      (fold.second, .intConst fold.right)]) ++ (fold.last, .bitwise .int fold.op) :: fold.back := by
    simpa using fold.split
  rw [Listing.next_of_split here, Listing.next_of_split fold.folded]

include fold in
theorem same_first : after.first = before.first := by
  rw [Listing.first_eq_head, Listing.first_eq_head, fold.split, fold.folded]
  cases fold.front <;> rfl

variable {fold : Folded before after}

/-- Of the nodes of the fold, only the first is live afterwards. -/
theorem elsewhere_of_live (live : after.isLive id = true) (different : id ≠ fold.first) :
    fold.Elsewhere id := by
  obtain ⟨content, held⟩ := Listing.isLive_iff.mp live
  have member := Listing.mem_items.mpr held
  simp only [fold.folded, List.mem_append, List.mem_cons, Prod.mk.injEq, different, false_and,
    false_or] at member
  obtain ⟨apartFront, apartBack⟩ := Listing.split_disjoint fold.split
  have outside : id ∉ [fold.first, fold.second, fold.last] :=
    member.elim (apartFront (id, content)) (apartBack (id, content))
  simpa [Elsewhere] using outside

/-- Outside of the fold, every node keeps its instruction. -/
theorem get?_elsewhere (apart : fold.Elsewhere id) : after.get? id = before.get? id := by
  obtain ⟨notFirst, notSecond, notLast⟩ := apart
  refine Option.ext fun content => ?_
  rw [← Listing.mem_items, ← Listing.mem_items, fold.split, fold.folded]
  simp [notFirst, notSecond, notLast]

/-- Outside of the fold, every node keeps the node that follows. -/
theorem next_elsewhere (apart : fold.Elsewhere id) (live : before.isLive id = true) :
    after.next id = before.next id := by
  obtain ⟨content, held⟩ := Listing.isLive_iff.mp live
  obtain ⟨notFirst, notSecond, notLast⟩ := apart
  have member := Listing.mem_items.mpr held
  simp only [fold.split, List.mem_append, List.mem_cons, Prod.mk.injEq, notFirst, notSecond,
    notLast, false_and, List.not_mem_nil, or_false] at member
  rcases member with ahead | behind
  · obtain ⟨early, late, shape⟩ := List.mem_iff_append.mp ahead
    have split := fold.split
    have folded := fold.folded
    rw [shape, List.append_assoc, List.append_assoc, List.cons_append] at split
    rw [shape, List.append_assoc, List.cons_append] at folded
    rw [Listing.next_of_split split, Listing.next_of_split folded]
    cases late <;> rfl
  · obtain ⟨early, late, shape⟩ := List.mem_iff_append.mp behind
    have split := fold.split
    have folded := fold.folded
    rw [shape, ← List.append_assoc] at split
    rw [shape, ← List.cons_append, ← List.append_assoc] at folded
    rw [Listing.next_of_split split, Listing.next_of_split folded]

/-- Outside of the fold, the machine takes the same steps before and after. -/
theorem step_elsewhere (apart : fold.Elsewhere id)
    (lands : ∀ bytecode targets, before.get? id = some (.jump bytecode targets) →
      ∀ target ∈ targets, ∀ landing, before.resolve target = some landing →
        after.isLive landing = true) :
    Step before effect (id, stack) (other, stack') ↔
      Step after effect (id, stack) (other, stack') := by
  have held := get?_elsewhere apart
  constructor
  · intro step
    have next (live : ∃ content, before.get? id = some content) :=
      next_elsewhere apart (Listing.isLive_iff.mpr live)
    cases step with
    | push here following => exact .push (held ▸ here) (next ⟨_, here⟩ ▸ following)
    | combine here following => exact .combine (held ▸ here) (next ⟨_, here⟩ ▸ following)
    | pass here foreign following =>
      exact .pass (held ▸ here) foreign (next ⟨_, here⟩ ▸ following)
    | jump here named leads =>
      exact .jump (held ▸ here) named
        ((fold.thins.resolve_iff (lands _ _ here _ named)).mpr leads)
  · intro step
    have next (live : ∃ content, after.get? id = some content) :=
      next_elsewhere apart (Listing.isLive_iff.mpr (held ▸ live))
    cases step with
    | push here following => exact .push (held ▸ here) (next ⟨_, here⟩ ▸ following)
    | combine here following => exact .combine (held ▸ here) (next ⟨_, here⟩ ▸ following)
    | pass here foreign following =>
      exact .pass (held ▸ here) foreign (next ⟨_, here⟩ ▸ following)
    | jump here named leads =>
      exact .jump (held ▸ here) named
        ((fold.thins.resolve_iff (lands _ _ (held ▸ here) _ named)).mp leads)

/-- Where the folded listing stands while the original one is at a node: at the
same node, or at the value that stands for the nodes in between. -/
def Covered (fold : Folded before after) (effect : Effect β) (id : NodeId)
    (stack : List (Cell β)) : Prop :=
  Reaches after effect id stack ∨
    (id = fold.second ∧ ∃ rest, stack = .int fold.left :: rest ∧
      Reaches after effect fold.first rest) ∨
    (id = fold.last ∧ ∃ rest, stack = .int fold.right :: .int fold.left :: rest ∧
      Reaches after effect fold.first rest)

theorem covered_of_reaches (fold : Folded before after) (lands : LandsIn before effect after)
    (reached : Reaches before effect id stack) : fold.Covered effect id stack := by
  refine Reaches.induct (fold.Covered effect) ?_ ?_ reached
  · intro start found
    exact .inl ⟨start, fold.same_first.trans found, .refl⟩
  · intro id stack other stack' reached covered step
    rcases covered with arrived | ⟨rfl, rest, rfl, arrived⟩ | ⟨rfl, rest, rfl, arrived⟩
    · by_cases first : id = fold.first
      · subst first
        obtain ⟨next, rfl⟩ := step_of_const fold.held_first step
        rw [fold.next_first] at next
        cases next
        exact .inr (.inl ⟨rfl, stack, rfl, arrived⟩)
      · have apart : fold.Elsewhere id := elsewhere_of_live arrived.live first
        have same := (step_elsewhere apart fun bytecode targets here =>
          lands id stack bytecode targets reached here).mp step
        exact .inl (arrived.step same)
    · obtain ⟨next, rfl⟩ := step_of_const fold.held_second step
      rw [fold.next_second] at next
      cases next
      exact .inr (.inr ⟨rfl, rest, rfl, arrived⟩)
    · obtain ⟨left, right, below, same, next, rfl⟩ := step_of_bitwise fold.held_last step
      cases same
      rw [fold.next_last] at next
      exact .inl (arrived.step (.push fold.held_value next))

theorem reaches_of_folded (fold : Folded before after) (lands : LandsIn before effect after)
    (reached : Reaches after effect id stack) : Reaches before effect id stack := by
  refine Reaches.induct (Reaches before effect) ?_ ?_ reached
  · intro start found
    exact ⟨start, fold.same_first.symm.trans found, .refl⟩
  · intro id stack other stack' arrived reached step
    by_cases first : id = fold.first
    · -- one step behind the value is three steps through the expression
      subst first
      obtain ⟨next, rfl⟩ := step_of_const fold.held_value step
      have one := reached.step (.push fold.held_first fold.next_first)
      have two := one.step (.push fold.held_second fold.next_second)
      exact two.step (.combine fold.held_last (fold.next_last.trans next))
    · have apart : fold.Elsewhere id := elsewhere_of_live arrived.live first
      exact reached.step ((step_elsewhere apart fun bytecode targets here =>
        lands id stack bytecode targets reached here).mpr step)

/-- An instruction that is not computed stands outside of every fold. -/
theorem elsewhere_of_foreign (fold : Folded before after) {instruction : Instruction}
    (held : before.get? id = some instruction) (foreign : computes instruction = false) :
    fold.Elsewhere id := by
  refine ⟨?_, ?_, ?_⟩ <;> rintro rfl
  · cases held.symm.trans fold.held_first
    cases foreign
  · cases held.symm.trans fold.held_second
    cases foreign
  · cases held.symm.trans fold.held_last
    cases foreign

theorem get?_of_foreign (fold : Folded before after) {instruction : Instruction}
    (foreign : computes instruction = false) :
    after.get? id = some instruction ↔ before.get? id = some instruction := by
  constructor
  · intro held
    have different : id ≠ fold.first := by
      rintro rfl
      cases held.symm.trans fold.held_value
      cases foreign
    have live : after.isLive id = true := Listing.isLive_iff.mpr ⟨_, held⟩
    exact (get?_elsewhere (elsewhere_of_live live different)).symm.trans held
  · intro held
    exact (get?_elsewhere (fold.elsewhere_of_foreign held foreign)).trans held

/-- One fold keeps the arrivals, unless a jump lands inside of it. -/
theorem arrivals_eq (fold : Folded before after) (lands : LandsIn before effect after) :
    arrivals after effect = arrivals before effect := by
  refine Set.ext fun ⟨id, stack⟩ => ?_
  constructor
  · rintro ⟨reached, instruction, held, isOpaque⟩
    have foreign := computes_of_opaque isOpaque
    exact ⟨fold.reaches_of_folded lands reached, instruction,
      (fold.get?_of_foreign foreign).mp held, isOpaque⟩
  · rintro ⟨reached, instruction, held, isOpaque⟩
    have foreign := computes_of_opaque isOpaque
    obtain ⟨_, notSecond, notLast⟩ := fold.elsewhere_of_foreign held foreign
    rcases fold.covered_of_reaches lands reached with arrived | ⟨same, _⟩ | ⟨same, _⟩
    · exact ⟨arrived, instruction, (fold.get?_of_foreign foreign).mpr held, isOpaque⟩
    · exact absurd same notSecond
    · exact absurd same notLast

/-- If jumps land on nodes that outlast the fold and all that comes after it, they
still do so once the fold is made. -/
theorem landsIn_folded (fold : Folded before after) {final : Listing Instruction}
    (rest : Listing.Thins after final) (lands : LandsIn before effect final) :
    LandsIn after effect final := by
  have here := lands.earlier rest
  intro id stack bytecode targets reached held target named landing leads
  have before := fold.reaches_of_folded here reached
  have held' := (fold.get?_of_foreign rfl).mp held
  have leads' := (fold.thins.resolve_iff
    (here id stack bytecode targets before held' target named)).mp leads
  exact lands id stack bytecode targets before held' target named landing leads'

end Folded

/-! ### A pass -/

theorem thins_of_folds {final : Listing Instruction}
    (chain : Relation.ReflTransGen (Changes (Fold.step .int mode)) code final) :
    Listing.Thins code final := by
  induction chain with
  | refl => exact .refl _
  | tail _ changed ih => exact ih.trans (Fold.changes_thin changed)

theorem arrivals_of_folds {final : Listing Instruction}
    (chain : Relation.ReflTransGen (Changes (Fold.step .int mode)) code final)
    (lands : LandsIn code effect final) : arrivals final effect = arrivals code effect := by
  induction chain using Relation.ReflTransGen.head_induction_on with
  | refl => rfl
  | head changed chain ih =>
    obtain ⟨fold⟩ := exists_folded changed
    have rest := thins_of_folds chain
    exact (ih (fold.landsIn_folded rest lands)).trans (fold.arrivals_eq (lands.earlier rest))

/-- Folding until nothing is left to fold keeps the arrivals, as long as no jump
that the machine gets to leads to a node that folding takes out. -/
theorem fold_run_keeps_arrivals (options : Options) (state : RecoveryState) (effect : Effect β)
    (lands : LandsIn state.initializerCode effect
      ((Pass.fold .int).run options state).1.initializerCode) :
    (∀ id ∈ ((Pass.fold .int).run options state).1.initializerCode.ids,
      Fold.step .int options.longFold ((Pass.fold .int).run options state).1.initializerCode id =
        .skip) ∧
    arrivals ((Pass.fold .int).run options state).1.initializerCode effect =
      arrivals state.initializerCode effect :=
  ⟨Pass.fold_run_still .int options state,
    arrivals_of_folds (Pass.fold_run_reaches .int options state) lands⟩

/-- A static initializer with the given instructions, before any pass. -/
def initial (code : List Instruction) : RecoveryState :=
  .start (.ofMembers "Choice" [⟨"flag", "Z"⟩] [(⟨initializerName, "()V"⟩, code)]) 0

/-- The read of the flag. -/
def readFlag : Instruction := .getStatic ⟨"Choice", "flag", "Z"⟩

/-- The read of a field brings a value that is not known, and a branch on zero
takes one off the stack. -/
def flagEffect : Effect Unit
  | _, .getStatic _, stack => .other () :: stack
  | _, .jump (.branch .ifeq _) _, stack => stack.tail
  | _, _, stack => stack

private theorem int_not_mem_flagEffect {value : Int32} {id : NodeId} {instruction : Instruction}
    {stack : List (Cell Unit)} (absent : .int value ∉ stack) :
    .int value ∉ flagEffect id instruction stack := by
  unfold flagEffect
  split
  · simpa using absent
  · exact fun member => absent (List.mem_of_mem_tail member)
  · exact absent

/-- `flag ? 5 ^ 3 : 9`: both jumps land outside of the folded expression. -/
def foldedBranch : List Instruction :=
  [readFlag, .jump (.branch .ifeq 6) [6],
   .intConst 5, .intConst 3, .bitwise .int .xor, .jump (.branch .goto 7) [7],
   .intConst 9, .plain (.plain .pop), .plain (.plain .returnVoid)]

theorem foldedBranch_keeps_arrivals :
    ((Pass.fold .int).run ⟨.combine⟩ (initial foldedBranch)).1.initializerCode.ids =
      [0, 1, 2, 5, 6, 7, 8] ∧
    LandsIn (.ofList foldedBranch) flagEffect
      ((Pass.fold .int).run ⟨.combine⟩ (initial foldedBranch)).1.initializerCode ∧
    arrivals ((Pass.fold .int).run ⟨.combine⟩ (initial foldedBranch)).1.initializerCode flagEffect =
      arrivals (.ofList foldedBranch) flagEffect := by
  have lands : LandsIn (.ofList foldedBranch) flagEffect
      ((Pass.fold .int).run ⟨.combine⟩ (initial foldedBranch)).1.initializerCode := by
    intro id stack bytecode targets _ held target named landing leads
    have listed := Listing.mem_toList.mpr ⟨id, held⟩
    simp only [Listing.toList_ofList, foldedBranch, readFlag, List.mem_cons, reduceCtorEq,
      Instruction.jump.injEq, List.not_mem_nil, false_or, or_false] at listed
    rcases listed with ⟨_, rfl⟩ | ⟨_, rfl⟩
    · cases List.mem_singleton.mp named
      cases leads
      rfl
    · cases List.mem_singleton.mp named
      cases leads
      rfl
  exact ⟨rfl, lands,
    (fold_run_keeps_arrivals ⟨.combine⟩ (initial foldedBranch) flagEffect lands).2⟩

/-- `(flag ? 5 : 3) ^ 7`: the jump out of the first branch lands on the second
operand. -/
def sharedOperand : List Instruction :=
  [readFlag, .jump (.branch .ifeq 4) [4],
   .intConst 5, .jump (.branch .goto 5) [5],
   .intConst 3, .intConst 7, .bitwise .int .xor,
   .plain (.plain .pop), .plain (.plain .returnVoid)]

/-- Folding `3 ^ 7` leads the first branch past the operation: the machine no
longer comes out of the expression with `5 ^ 7`. -/
theorem sharedOperand_loses_arrival :
    (7, [.int 2]) ∈ arrivals (initial sharedOperand).initializerCode flagEffect ∧
    (7, [.int 2]) ∉ arrivals
      ((Pass.fold .int).run ⟨.combine⟩ (initial sharedOperand)).1.initializerCode flagEffect := by
  constructor
  · refine ⟨⟨0, rfl, ?_⟩, _, rfl, rfl⟩
    generalize listing : (initial sharedOperand).initializerCode = code
    have load : Step code flagEffect (0, []) (1, flagEffect 0 readFlag []) :=
      .pass (listing ▸ rfl) rfl (listing ▸ rfl)
    have branch : Step code flagEffect (1, [.other ()])
        (2, flagEffect 1 (.jump (.branch .ifeq 4) [4]) [.other ()]) :=
      .pass (listing ▸ rfl) rfl (listing ▸ rfl)
    have five : Step code flagEffect (2, []) (3, [.int 5]) :=
      .push (listing ▸ rfl) (listing ▸ rfl)
    have goto : Step code flagEffect (3, [.int 5])
        (5, flagEffect 3 (.jump (.branch .goto 5) [5]) [.int 5]) :=
      .jump (listing ▸ rfl) (List.mem_singleton.mpr rfl) (listing ▸ rfl)
    have seven : Step code flagEffect (5, [.int 5]) (6, [.int 7, .int 5]) :=
      .push (listing ▸ rfl) (listing ▸ rfl)
    have combined : Step code flagEffect (6, [.int 7, .int 5])
        (7, [.int (BitwiseOp.onInt .xor 5 7)]) :=
      .combine (listing ▸ rfl) (listing ▸ rfl)
    exact .head load (.head branch (.head five (.head goto (.head seven (.single combined)))))
  · rintro ⟨reached, _⟩
    -- the constants left are 5 and 4, and no operation is left to make another one
    have never := Reaches.induct (fun _ stack => Cell.int 2 ∉ stack) ?_ ?_ reached
    · exact never List.mem_cons_self
    · intro id found
      exact List.not_mem_nil
    · intro id stack other stack' _ absent step
      have view : ((Pass.fold .int).run ⟨.combine⟩ (initial sharedOperand)).1.initializerCode.toList
        = [readFlag, .jump (.branch .ifeq 4) [4], .intConst 5, .jump (.branch .goto 5) [5],
          .intConst 4, .plain (.plain .pop), .plain (.plain .returnVoid)] := rfl
      cases step with
      | push held next =>
        have listed := Listing.mem_toList.mpr ⟨_, held⟩
        rw [view] at listed
        simp only [readFlag, List.mem_cons, reduceCtorEq, Instruction.intConst.injEq,
          List.not_mem_nil, false_or, or_false] at listed
        rcases listed with rfl | rfl <;> simpa using absent
      | combine held next =>
        have listed := Listing.mem_toList.mpr ⟨_, held⟩
        rw [view] at listed
        simp [readFlag] at listed
      | pass held foreign next => exact int_not_mem_flagEffect absent
      | jump held named leads => exact int_not_mem_flagEffect absent

end Machine

end LiteralRecovery
