import LiteralRecovery.Proofs.Neighbours

/-! A listing as a doubly linked list. Cells are numbered like slots. A live cell
knows its neighbours; one that was taken out keeps its link forward, so that a
cursor left on it still finds its way. Links are followed without a look at what
they lead to: a walk could leave the cells, or never end. Neither happens,
whatever is done, and every question is answered as by the listing after the
same edits. -/
namespace LiteralRecovery

/-- What can go wrong along links. -/
inductive Fault where
  /-- A link leads out of the cells. -/
  | outOfBounds
  /-- A walk has come by more nodes than there are cells. -/
  | endless
deriving DecidableEq

structure Cell (α : Type) where
  content : Option α
  prev : Option NodeId
  next : Option NodeId

structure Linked (α : Type) where
  cells : Array (Cell α)
  head : Option NodeId
  tail : Option NodeId
  length : Nat

namespace Linked

variable {α : Type}

def empty : Linked α := ⟨#[], none, none, 0⟩

def get? (chain : Linked α) (id : NodeId) : Option α := chain.cells[id]?.bind (·.content)

def isLive (chain : Linked α) (id : NodeId) : Bool := (chain.get? id).isSome

/-- The cell at `id`, which has to be there. -/
def cell (chain : Linked α) (id : NodeId) : Except Fault (Cell α) :=
  match chain.cells[id]? with
  | some cell => .ok cell
  | none => .error .outOfBounds

/-- Changes the cell at `id`, which has to be there. -/
def write (chain : Linked α) (id : NodeId) (change : Cell α → Cell α) :
    Except Fault (Linked α) :=
  if id < chain.cells.size then .ok { chain with cells := chain.cells.modify id change }
  else .error .outOfBounds

/-- Sets the link behind a node, or behind the start. -/
def linkNext (chain : Linked α) (place next : Option NodeId) : Except Fault (Linked α) :=
  match place with
  | some id => chain.write id fun cell => { cell with next }
  | none => .ok { chain with head := next }

/-- Sets the link before a node, or before the end. -/
def linkPrev (chain : Linked α) (place prev : Option NodeId) : Except Fault (Linked α) :=
  match place with
  | some id => chain.write id fun cell => { cell with prev }
  | none => .ok { chain with tail := prev }

/-- Adds a cell at the end and links it to the one before. -/
def push (chain : Linked α) (content : α) : Except Fault (NodeId × Linked α) := do
  let id := chain.cells.size
  let grown := { chain with cells := chain.cells.push ⟨some content, chain.tail, none⟩ }
  let linked ← grown.linkNext chain.tail (some id)
  return (id, { linked with tail := some id, length := linked.length + 1 })

/-- Gives a live node new contents and hands out the old ones. -/
def replace (chain : Linked α) (id : NodeId) (content : α) :
    Except Fault (Option α × Linked α) :=
  match chain.get? id with
  | none => .ok (none, chain)
  | some old => do
    let written ← chain.write id fun cell => { cell with content := some content }
    return (some old, written)

/-- Takes a live node out and links its neighbours. Its own links stay. -/
def remove (chain : Linked α) (id : NodeId) : Except Fault (Option α × Linked α) :=
  match chain.get? id with
  | none => .ok (none, chain)
  | some old => do
    let taken ← chain.write id fun cell => { cell with content := none }
    let cell ← taken.cell id
    let skipped ← taken.linkNext cell.prev cell.next
    let closed ← skipped.linkPrev cell.next cell.prev
    return (some old, { closed with length := closed.length - 1 })

/-- The first live node along the links from `cursor` on. -/
def walk (chain : Linked α) : (steps : Nat) → (cursor : Option NodeId) →
    Except Fault (Option NodeId)
  | _, none => .ok none
  | 0, some _ => .error .endless
  | steps + 1, some id =>
    if chain.isLive id then .ok (some id)
    else do
      let cell ← chain.cell id
      chain.walk steps cell.next

def next (chain : Linked α) (id : NodeId) : Except Fault (Option NodeId) :=
  match chain.cells[id]? with
  | none => .ok none
  | some cell => chain.walk chain.cells.size cell.next

def resolve (chain : Linked α) (id : NodeId) : Except Fault (Option NodeId) :=
  if chain.isLive id then .ok (some id) else chain.next id

/-- The live nodes from `cursor` on. -/
def iterate (chain : Linked α) : (steps : Nat) → (cursor : Option NodeId) →
    Except Fault (List (NodeId × α))
  | _, none => .ok []
  | 0, some _ => .error .endless
  | steps + 1, some id => do
    let following ← chain.next id
    match chain.get? id with
    | none => return []
    | some content => return (id, content) :: (← chain.iterate steps following)

def items (chain : Linked α) : Except Fault (List (NodeId × α)) :=
  chain.iterate chain.cells.size chain.head

/-- The next `count` nodes behind `id`. -/
def follow (chain : Linked α) : (count : Nat) → (id : NodeId) → Except Fault (Option (List NodeId))
  | 0, _ => .ok (some [])
  | count + 1, id => do
    match ← chain.next id with
    | none => return none
    | some following => return (← chain.follow count following).map (following :: ·)

/-- A live node and the `more` nodes behind it. -/
def window (chain : Linked α) (more : Nat) (id : NodeId) :
    Except Fault (Option (List (NodeId × α))) := do
  match ← chain.follow more id with
  | none => return none
  | some rest => return (id :: rest).mapM fun node => (chain.get? node).map (node, ·)

end Linked

/-! ### The same nodes -/

open Listing

namespace Linked

variable {α : Type} {chain later : Linked α} {list : Listing α} {id : Nat} {content : α}

/-- Where the link of a vacant slot may lead: nowhere if nothing live follows,
else forward to a slot that is not closed, over no live node. -/
def Forward (list : Listing α) (id : NodeId) : Option NodeId → Prop
  | none => list.liveFrom (id + 1) = none
  | some target => id < target ∧ target < list.size ∧ list.slots[target]? ≠ some .closed ∧
      list.liveFrom (id + 1) = list.liveFrom target

/-- The linked list holds what the listing holds. Live cells are linked to their
neighbours and vacant ones forward; a closed cell leads to closed ones only. -/
structure Mirrors (chain : Linked α) (list : Listing α) : Prop where
  size : chain.cells.size = list.size
  get : ∀ id, chain.get? id = list.get? id
  length : chain.length = list.length
  head : chain.head = list.first
  tail : chain.tail = list.lastBelow list.size
  live : ∀ (id : Nat) (cell : Cell α), chain.cells[id]? = some cell → list.isLive id = true →
    cell.prev = list.lastBelow id ∧ cell.next = list.liveFrom (id + 1)
  vacant : ∀ (id : Nat) (cell : Cell α), chain.cells[id]? = some cell →
    list.slots[id]? = some .vacant → Forward list id cell.next
  closed : ∀ (id target : Nat) (cell : Cell α), chain.cells[id]? = some cell →
    list.slots[id]? = some .closed → cell.next = some target →
      id < target ∧ list.slots[target]? = some .closed

theorem forward_liveFrom (list : Listing α) (id : NodeId) :
    Forward list id (list.liveFrom (id + 1)) := by
  cases found : list.liveFrom (id + 1) with
  | none => exact found
  | some target =>
    obtain ⟨live, beyond, _⟩ := liveFrom_eq_some.mp found
    refine ⟨beyond, lt_size_of_live live, fun closed => ?_, ?_⟩
    · rw [dead_of_closed closed] at live
      cases live
    · rw [found, liveFrom_of_live live]

/-- Links forward stay good while nodes only go. -/
theorem Forward.thinned {fewer : Listing α} {link : Option NodeId} (thins : Thins list fewer)
    (forward : Forward list id link) : Forward fewer id link := by
  cases link with
  | none => exact thins.liveFrom_none forward
  | some target =>
    obtain ⟨beyond, inside, opened, same⟩ := forward
    exact ⟨beyond, thins.size ▸ inside, fun shut => opened ((thins.closed target).mp shut),
      thins.liveFrom_eq same⟩

theorem mirrors_empty : (empty : Linked α).Mirrors .empty where
  size := rfl
  get _ := rfl
  length := rfl
  head := rfl
  tail := rfl
  live _ _ found := by simp [empty] at found
  vacant _ _ found := by simp [empty] at found
  closed _ _ _ found := by simp [empty] at found

section Questions

variable (mirrors : chain.Mirrors list)
include mirrors

theorem Mirrors.isLive (id : NodeId) : chain.isLive id = list.isLive id :=
  congrArg Option.isSome (mirrors.get id)

theorem Mirrors.cell_of_lt (inside : id < list.size) : ∃ cell, chain.cells[id]? = some cell := by
  have bound : id < chain.cells.size := mirrors.size ▸ inside
  exact ⟨_, Array.getElem?_eq_getElem bound⟩

/-- A link forward leads a walk to the next live node. -/
theorem Mirrors.walk_forward {steps : Nat} {link : Option NodeId} (forward : Forward list id link)
    (enough : list.size ≤ id + 1 + steps) :
    chain.walk steps link = .ok (list.liveFrom (id + 1)) := by
  induction steps generalizing id link with
  | zero =>
    cases link with
    | none => rw [walk, forward]
    | some target =>
      obtain ⟨beyond, inside, _⟩ := forward
      exact absurd inside (Nat.not_lt.mpr (Nat.le_trans enough beyond))
  | succ steps ih =>
    cases link with
    | none => rw [walk, forward]
    | some target =>
      obtain ⟨beyond, inside, opened, same⟩ := forward
      rw [walk, mirrors.isLive, same]
      by_cases live : list.isLive target = true
      · rw [if_pos live, liveFrom_of_live live]
      · have dead : list.isLive target = false := by simpa using live
        obtain ⟨cell, found⟩ := mirrors.cell_of_lt inside
        have vacant := (slot_of_dead inside dead).resolve_right opened
        rw [if_neg live, liveFrom_of_dead dead]
        simp only [Linked.cell, found]
        refine ih (mirrors.vacant target cell found vacant) (Nat.le_trans enough ?_)
        have step : id + 1 ≤ target := beyond
        omega

/-- From a closed slot a walk finds nothing. -/
theorem Mirrors.walk_closed {steps : Nat} (closed : list.slots[id]? = some .closed)
    (enough : list.size ≤ id + steps) : chain.walk steps (some id) = .ok none := by
  induction steps generalizing id with
  | zero => exact absurd (lt_size_of_slot closed) (Nat.not_lt.mpr enough)
  | succ steps ih =>
    obtain ⟨cell, found⟩ := mirrors.cell_of_lt (lt_size_of_slot closed)
    rw [walk, mirrors.isLive, dead_of_closed closed, if_neg Bool.false_ne_true]
    simp only [Linked.cell, found]
    change chain.walk steps cell.next = _
    cases link : cell.next with
    | none => rw [walk]
    | some target =>
      obtain ⟨beyond, closed'⟩ := mirrors.closed id target cell found closed link
      exact ih closed' (by omega)

theorem Mirrors.next (id : NodeId) : chain.next id = .ok (list.next id) := by
  by_cases inside : id < list.size
  · obtain ⟨cell, found⟩ := mirrors.cell_of_lt inside
    simp only [Linked.next, found, mirrors.size]
    by_cases live : list.isLive id = true
    · rw [next_of_live live, (mirrors.live id cell found live).2]
      exact mirrors.walk_forward (forward_liveFrom list id) (Nat.le_add_left _ _)
    · rcases slot_of_dead inside (by simpa using live) with vacant | closed
      · rw [next_of_open inside (by simp [vacant])]
        exact mirrors.walk_forward (mirrors.vacant id cell found vacant) (Nat.le_add_left _ _)
      · have lost : list.next id = none := by rw [Listing.next, closed]
        rw [lost]
        cases link : cell.next with
        | none => rw [walk]
        | some target =>
          obtain ⟨_, closed'⟩ := mirrors.closed id target cell found closed link
          exact mirrors.walk_closed closed' (Nat.le_add_left _ _)
  · have outside : list.slots[id]? = none := Array.getElem?_eq_none (Nat.le_of_not_lt inside)
    have outside' : chain.cells[id]? = none :=
      Array.getElem?_eq_none (mirrors.size ▸ Nat.le_of_not_lt inside)
    simp only [Linked.next, outside', Listing.next, outside]

theorem Mirrors.resolve (id : NodeId) : chain.resolve id = .ok (list.resolve id) := by
  rw [Linked.resolve, Listing.resolve, mirrors.isLive]
  split
  · rfl
  · exact mirrors.next id

/-- The walk over all nodes comes by the live view. -/
theorem Mirrors.iterate {before rest : List (NodeId × α)} {steps : Nat}
    (split : list.items = before ++ rest) (enough : rest.length ≤ steps) :
    chain.iterate steps (rest.head?.map (·.1)) = .ok rest := by
  induction rest generalizing before steps with
  | nil => rw [List.head?_nil, Option.map_none, Linked.iterate]
  | cons entry rest ih =>
    obtain ⟨id, content⟩ := entry
    obtain ⟨steps, rfl⟩ := Nat.exists_eq_add_of_le' (Nat.zero_lt_of_lt enough)
    have behind : list.items = (before ++ [(id, content)]) ++ rest := by simpa using split
    rw [List.head?_cons, Option.map_some, Linked.iterate, mirrors.next, next_of_split split,
      mirrors.get, get?_of_split split]
    simp only [bind, Except.bind, ih behind (Nat.le_of_succ_le_succ enough)]
    rfl

theorem Mirrors.items : chain.items = .ok list.items := by
  rw [Linked.items, mirrors.head, first_eq_head]
  exact mirrors.iterate (List.nil_append _).symm (mirrors.size ▸ list.length_le_size)

end Questions

end Linked

/-- The next `count` nodes behind `id`. -/
def Listing.follow {α : Type} (list : Listing α) : (count : Nat) → (id : NodeId) →
    Option (List NodeId)
  | 0, _ => some []
  | count + 1, id => (list.next id).bind fun following =>
      (list.follow count following).map (following :: ·)

/-- A window can be taken in two turns: first the nodes, then their contents. -/
theorem Listing.window_eq_follow {α : Type} (list : Listing α) (more : Nat) (id : NodeId) :
    list.window (more + 1) id = (list.follow more id).bind fun rest =>
      (id :: rest).mapM fun node => (list.get? node).map (node, ·) := by
  induction more generalizing id with
  | zero => cases held : list.get? id <;> simp [window, follow, held]
  | succ more ih =>
    cases held : list.get? id with
    | none => simp [window, held]
    | some content =>
      cases onward : list.next id with
      | none => simp [window, follow, held, onward]
      | some following =>
        cases tail : list.follow more following <;>
          simp [window, follow, held, onward, ih following, tail]

namespace Linked

variable {α : Type} {chain later : Linked α} {list : Listing α} {id : Nat} {content : α}

theorem Mirrors.follow (mirrors : chain.Mirrors list) (count : Nat) (id : NodeId) :
    chain.follow count id = .ok (list.follow count id) := by
  induction count generalizing id with
  | zero => rfl
  | succ count ih =>
    rw [Linked.follow, Listing.follow, mirrors.next]
    cases list.next id with
    | none => rfl
    | some following =>
      simp only [bind, Except.bind, ih following]
      rfl

theorem Mirrors.window (mirrors : chain.Mirrors list) (more : Nat) (id : NodeId) :
    chain.window more id = .ok (list.window (more + 1) id) := by
  rw [Linked.window, window_eq_follow, mirrors.follow]
  simp only [bind, Except.bind, mirrors.get]
  cases list.follow more id <;> rfl

/-! ### The same edits -/

/-- The later list has the cells of the earlier one, each with a change made. -/
def Rewired (chain later : Linked α) (change : NodeId → Cell α → Cell α) : Prop :=
  later.cells.size = chain.cells.size ∧
    ∀ id : Nat, later.cells[id]? = chain.cells[id]?.map (change id)

theorem Rewired.cell {change : NodeId → Cell α → Cell α} (rewired : Rewired chain later change)
    {now : Cell α} (found : later.cells[id]? = some now) :
    ∃ was, chain.cells[id]? = some was ∧ now = change id was := by
  rw [rewired.2] at found
  obtain ⟨was, held, same⟩ := Option.map_eq_some_iff.mp found
  exact ⟨was, held, same.symm⟩

theorem rewired_write (inside : id < chain.cells.size) (change : Cell α → Cell α) :
    ∃ later, chain.write id change = .ok later ∧
      Rewired chain later (fun other cell => if other = id then change cell else cell) ∧
      later.head = chain.head ∧ later.tail = chain.tail ∧ later.length = chain.length := by
  refine ⟨_, if_pos inside, ⟨Array.size_modify, fun other => ?_⟩, rfl, rfl, rfl⟩
  rw [Array.getElem?_modify]
  by_cases same : id = other
  · subst same
    simp
  · simp [same, Ne.symm same]

theorem rewired_linkNext {place : Option NodeId}
    (inside : ∀ id, place = some id → id < chain.cells.size) (next : Option NodeId) :
    ∃ later, chain.linkNext place next = .ok later ∧
      Rewired chain later (fun id cell => if place = some id then { cell with next } else cell) ∧
      later.head = (if place = none then next else chain.head) ∧ later.tail = chain.tail ∧
      later.length = chain.length := by
  cases place with
  | none => exact ⟨_, rfl, ⟨rfl, fun id => by simp⟩, rfl, rfl, rfl⟩
  | some id =>
    obtain ⟨later, written, rewired, head, tail, length⟩ :=
      rewired_write (inside id rfl) fun cell => { cell with next }
    refine ⟨later, written, ?_, by simpa using head, tail, length⟩
    simpa only [Option.some.injEq, eq_comm] using rewired

theorem rewired_linkPrev {place : Option NodeId}
    (inside : ∀ id, place = some id → id < chain.cells.size) (prev : Option NodeId) :
    ∃ later, chain.linkPrev place prev = .ok later ∧
      Rewired chain later (fun id cell => if place = some id then { cell with prev } else cell) ∧
      later.head = chain.head ∧ later.tail = (if place = none then prev else chain.tail) ∧
      later.length = chain.length := by
  cases place with
  | none => exact ⟨_, rfl, ⟨rfl, fun id => by simp⟩, rfl, rfl, rfl⟩
  | some id =>
    obtain ⟨later, written, rewired, head, tail, length⟩ :=
      rewired_write (inside id rfl) fun cell => { cell with prev }
    refine ⟨later, written, ?_, head, by simpa using tail, length⟩
    simpa only [Option.some.injEq, eq_comm] using rewired

theorem Rewired.trans {last : Linked α} {change change' : NodeId → Cell α → Cell α}
    (early : Rewired chain later change) (late : Rewired later last change') :
    Rewired chain last fun id cell => change' id (change id cell) := by
  refine ⟨late.1.trans early.1, fun id => ?_⟩
  rw [late.2, early.2, Option.map_map]
  rfl

/-- What taking out the cell `gone` at `id` does to the cells. -/
def unlink (id : NodeId) (gone : Cell α) (other : NodeId) (was : Cell α) : Cell α where
  content := if other = id then none else was.content
  prev := if gone.next = some other then gone.prev else was.prev
  next := if gone.prev = some other then gone.next else was.next

/-- A removal does not fault while the links of the cell lead to cells. -/
theorem rewired_remove {gone : Cell α} {old : α} (found : chain.cells[id]? = some gone)
    (held : gone.content = some old) (before : ∀ id, gone.prev = some id → id < chain.cells.size)
    (behind : ∀ id, gone.next = some id → id < chain.cells.size) :
    ∃ later, chain.remove id = .ok (some old, later) ∧ Rewired chain later (unlink id gone) ∧
      later.head = (if gone.prev = none then gone.next else chain.head) ∧
      later.tail = (if gone.next = none then gone.prev else chain.tail) ∧
      later.length = chain.length - 1 := by
  have bound : id < chain.cells.size := (Array.getElem?_eq_some_iff.mp found).1
  obtain ⟨taken, wrote, rewired, head, tail, length⟩ :=
    rewired_write bound fun cell => { cell with content := none }
  have here : taken.cell id = .ok { gone with content := none } := by
    rw [Linked.cell, rewired.2, found]
    simp
  obtain ⟨skipped, linked, rewired', head', tail', length'⟩ :=
    rewired_linkNext (fun id link => rewired.1 ▸ before id link) gone.next
  obtain ⟨later, linked', rewired'', head'', tail'', length''⟩ :=
    rewired_linkPrev (fun id link => rewired'.1 ▸ rewired.1 ▸ behind id link) gone.prev
  have present : chain.get? id = some old := by rw [Linked.get?, found, Option.bind_some, held]
  refine ⟨{ later with length := later.length - 1 }, ?_, ?_, ?_, ?_, ?_⟩
  · rw [Linked.remove, present]
    simp only [bind, Except.bind, wrote, here, linked, linked']
    rfl
  · have whole := (rewired.trans rewired').trans rewired''
    refine ⟨whole.1, fun other => (whole.2 other).trans ?_⟩
    congr 1
    funext was
    simp only [unlink]
    split_ifs <;> rfl
  · rw [head'', head', head]
  · rw [tail'', tail', tail]
  · rw [length'', length', length]

/-- An addition does not fault while the last link leads to a cell. -/
theorem cells_push (inside : ∀ id, chain.tail = some id → id < chain.cells.size) (content : α) :
    ∃ later, chain.push content = .ok (chain.cells.size, later) ∧
      later.cells.size = chain.cells.size + 1 ∧
      later.cells[chain.cells.size]? = some ⟨some content, chain.tail, none⟩ ∧
      (∀ id < chain.cells.size, later.cells[id]? = chain.cells[id]?.map fun cell =>
        if chain.tail = some id then { cell with next := some chain.cells.size } else cell) ∧
      later.head = (if chain.tail = none then some chain.cells.size else chain.head) ∧
      later.tail = some chain.cells.size ∧ later.length = chain.length + 1 := by
  obtain ⟨linked, wrote, ⟨size, cells⟩, head, _, length⟩ := @rewired_linkNext α
    { chain with cells := chain.cells.push ⟨some content, chain.tail, none⟩ } chain.tail
    (fun id last => by
      rw [Array.size_push]
      exact Nat.lt_succ_of_lt (inside id last)) (some chain.cells.size)
  refine ⟨{ linked with tail := some chain.cells.size, length := linked.length + 1 }, ?_, ?_, ?_,
    ?_, head, rfl, congrArg (· + 1) length⟩
  · simp only [push, bind, Except.bind, wrote]
    rfl
  · rw [size, Array.size_push]
  · have other : chain.tail ≠ some chain.cells.size :=
      fun last => Nat.lt_irrefl _ (inside _ last)
    rw [cells, Array.getElem?_push_size, Option.map_some]
    exact congrArg some (if_neg other)
  · intro id below
    rw [cells, Array.getElem?_push, if_neg (Nat.ne_of_lt below)]

section Edits

variable (mirrors : chain.Mirrors list)
include mirrors

theorem Mirrors.replace (id : NodeId) (content : α) :
    ∃ later, chain.replace id content = .ok (list.get? id, later) ∧
      later.Mirrors (list.replace id content) := by
  cases held : list.get? id with
  | none =>
    have dead : ¬ list.isLive id = true := by simp [Listing.isLive, held]
    refine ⟨chain, ?_, ?_⟩
    · rw [Linked.replace, mirrors.get, held]
    · rwa [Listing.replace, if_neg dead]
  | some old =>
    have live : list.isLive id = true := isLive_iff.mpr ⟨old, held⟩
    have bound : id < chain.cells.size := mirrors.size ▸ lt_size_of_live live
    obtain ⟨later, written, rewired, head, tail, length⟩ :=
      rewired_write bound fun cell => { cell with content := some content }
    have same (other : NodeId) : (list.replace id content).isLive other = list.isLive other :=
      isLive_replace list id other content
    -- only the contents of one cell are new
    have links (other : NodeId) (was : Cell α) :
        (if other = id then { was with content := some content } else was).prev = was.prev ∧
          (if other = id then { was with content := some content } else was).next = was.next := by
      split <;> exact ⟨rfl, rfl⟩
    refine ⟨later, ?_, ⟨?_, ?_, ?_, ?_, ?_, ?_, ?_, ?_⟩⟩
    · rw [Linked.replace, mirrors.get, held]
      simp only [written]
      rfl
    · rw [rewired.1, mirrors.size, size_replace]
    · intro other
      rw [get?_replace live, ← mirrors.get, Linked.get?, Linked.get?, rewired.2]
      by_cases here : other = id
      · subst here
        obtain ⟨cell, found⟩ := mirrors.cell_of_lt (lt_size_of_live live)
        simp [found]
      · simp [here]
    · rw [length, mirrors.length, length_replace]
    · rw [head, mirrors.head]
      exact (liveFrom_congr same 0).symm
    · rw [tail, mirrors.tail, size_replace]
      exact (lastBelow_congr fun node _ => same node).symm
    · intro other now found alive
      obtain ⟨was, found', rfl⟩ := rewired.cell found
      rw [(links other was).1, (links other was).2, liveFrom_congr same,
        lastBelow_congr fun node _ => same node]
      exact mirrors.live other was found' (same other ▸ alive)
    · intro other now found vacant
      obtain ⟨was, found', rfl⟩ := rewired.cell found
      rw [(links other was).2]
      rw [getElem?_slots_replace] at vacant
      split at vacant
      · cases vacant
      · exact (mirrors.vacant other was found' vacant).thinned (thins_replace list id content)
    · intro other target now found closed leads
      obtain ⟨was, found', rfl⟩ := rewired.cell found
      rw [(links other was).2] at leads
      have shut := (thins_replace list id content).closed
      obtain ⟨beyond, closed'⟩ :=
        mirrors.closed other target was found' ((shut other).mp closed) leads
      exact ⟨beyond, (shut target).mpr closed'⟩

theorem Mirrors.remove (id : NodeId) :
    ∃ later, chain.remove id = .ok (list.get? id, later) ∧ later.Mirrors (list.remove id) := by
  cases held : list.get? id with
  | none =>
    have dead : ¬ list.isLive id = true := by simp [Listing.isLive, held]
    refine ⟨chain, ?_, ?_⟩
    · rw [Linked.remove, mirrors.get, held]
    · rwa [Listing.remove, if_neg dead]
  | some old =>
    have live : list.isLive id = true := isLive_iff.mpr ⟨old, held⟩
    obtain ⟨gone, found⟩ := mirrors.cell_of_lt (lt_size_of_live live)
    obtain ⟨before, behind⟩ := mirrors.live id gone found live
    have content : gone.content = some old := by
      rw [← held, ← mirrors.get, Linked.get?, found, Option.bind_some]
    obtain ⟨later, removed, rewired, head, tail, length⟩ := rewired_remove found content
      (fun node link => by
        rw [mirrors.size]
        exact lt_size_of_live (lastBelow_eq_some.mp (before ▸ link)).1)
      (fun node link => by
        rw [mirrors.size]
        exact lt_size_of_liveFrom (behind ▸ link))
    rw [before, behind] at head tail
    -- the neighbour that is linked anew is live
    have kept (other : Nat) (was : Cell α) (dead : (list.remove id).isLive other = false) :
        (unlink id gone other was).next = was.next := by
      refine if_neg fun link => ?_
      rw [before] at link
      obtain ⟨alive, below, _⟩ := lastBelow_eq_some.mp link
      rw [isLive_remove_of_ne (Nat.ne_of_lt below) alive] at dead
      cases dead
    refine ⟨later, removed, ⟨?_, ?_, ?_, ?_, ?_, ?_, ?_, ?_⟩⟩
    · rw [rewired.1, mirrors.size, size_remove]
    · intro other
      rw [get?_remove, ← mirrors.get, Linked.get?, Linked.get?, rewired.2]
      by_cases same : other = id
      · subst same
        simp [found, unlink]
      · cases chain.cells[other]? <;> simp [same, unlink]
    · rw [length, mirrors.length, ← length_remove live, Nat.add_sub_cancel]
    · rw [head, mirrors.head, first_remove]
      exact if_congr (first_iff_nothing_before live).symm rfl rfl
    · rw [tail, mirrors.tail, size_remove, lastBelow_remove]
      exact if_congr (last_iff_nothing_behind live).symm rfl rfl
    · intro other now present alive
      obtain ⟨was, present', rfl⟩ := rewired.cell present
      have lived : list.isLive other = true := (thins_remove list id).live other alive
      obtain ⟨before', behind'⟩ := mirrors.live other was present' lived
      constructor
      · rw [lastBelow_remove, unlink, behind, before, before']
        exact if_congr (follows_iff_precedes lived live) rfl rfl
      · rw [liveFrom_remove, unlink, behind, before, behind']
        exact if_congr (follows_iff_precedes live lived).symm rfl rfl
    · intro other now present vacant
      obtain ⟨was, present', rfl⟩ := rewired.cell present
      rw [kept other was (dead_of_vacant vacant)]
      rw [getElem?_slots_remove] at vacant
      split at vacant
      · rename_i here
        obtain ⟨rfl, _⟩ := here
        cases found.symm.trans present'
        rw [behind]
        exact (forward_liveFrom list other).thinned (thins_remove list other)
      · exact (mirrors.vacant other was present' vacant).thinned (thins_remove list id)
    · intro other target now present closed leads
      obtain ⟨was, present', rfl⟩ := rewired.cell present
      rw [kept other was (dead_of_closed closed)] at leads
      have shut := (thins_remove list id).closed
      obtain ⟨beyond, closed'⟩ :=
        mirrors.closed other target was present' ((shut other).mp closed) leads
      exact ⟨beyond, (shut target).mpr closed'⟩

theorem Mirrors.push (content : α) :
    ∃ later, chain.push content = .ok (list.size, later) ∧
      later.Mirrors (list.push content) := by
  have last (id : NodeId) (link : chain.tail = some id) :
      list.isLive id = true ∧ id < list.size := by
    rw [mirrors.tail] at link
    obtain ⟨live, below, _⟩ := lastBelow_eq_some.mp link
    exact ⟨live, below⟩
  obtain ⟨later, pushed, size, new, old, head, tail, length⟩ :=
    cells_push (fun id link => mirrors.size ▸ (last id link).2) content
  simp only [mirrors.size] at pushed size new old head tail
  have cases (id : Nat) (now : Cell α) (found : later.cells[id]? = some now) :
      (id = list.size ∧ now = ⟨some content, chain.tail, none⟩) ∨
      (id < list.size ∧ ∃ was, chain.cells[id]? = some was ∧
        now = if chain.tail = some id then { was with next := some list.size } else was) := by
    rcases Nat.lt_trichotomy id list.size with below | rfl | above
    · rw [old id below] at found
      obtain ⟨was, held, same⟩ := Option.map_eq_some_iff.mp found
      exact .inr ⟨below, was, held, same.symm⟩
    · exact .inl ⟨rfl, Option.some.inj (found.symm.trans new)⟩
    · have bound := (Array.getElem?_eq_some_iff.mp found).1
      omega
  -- only a live cell gets a link to the new one
  have earlier (id : Nat) (cell : Cell α) (below : id < list.size) (dead : list.isLive id = false)
      (found : later.cells[id]? = some cell) : chain.cells[id]? = some cell := by
    rcases cases id cell found with ⟨rfl, _⟩ | ⟨_, was, held, rfl⟩
    · exact absurd below (Nat.lt_irrefl _)
    · have other : chain.tail ≠ some id := by
        intro link
        rw [(last id link).1] at dead
        cases dead
      rwa [if_neg other]
  refine ⟨later, pushed, ⟨?_, ?_, ?_, ?_, ?_, ?_, ?_, ?_⟩⟩
  · rw [size, size_push]
  · intro id
    rw [get?_push, ← mirrors.get, Linked.get?, Linked.get?]
    rcases Nat.lt_trichotomy id list.size with below | rfl | above
    · rw [old id below, if_neg (Nat.ne_of_lt below)]
      cases chain.cells[id]? with
      | none => rfl
      | some was => by_cases here : chain.tail = some id <;> simp [here]
    · rw [new, if_pos rfl]
      rfl
    · rw [if_neg (Nat.ne_of_gt above), Array.getElem?_eq_none (by rw [size]; exact above),
        Array.getElem?_eq_none (by rw [mirrors.size]; exact Nat.le_of_lt above)]
  · rw [length, mirrors.length, length_push]
  · rw [head, mirrors.head, mirrors.tail, first_push]
    cases first : list.first with
    | none => rw [if_pos (first_none_iff_last_none.mp first), Option.getD_none]
    | some start =>
      have present : list.lastBelow list.size ≠ none := by
        rw [Ne, ← first_none_iff_last_none, first]
        simp
      rw [if_neg present, Option.getD_some]
  · rw [tail, size_push, lastBelow, if_pos ((isLive_push _ _ _).mpr (.inl rfl))]
  · intro id now found live
    rcases cases id now found with ⟨rfl, rfl⟩ | ⟨below, was, held, rfl⟩
    · refine ⟨?_, ?_⟩
      · rw [lastBelow_push (Nat.le_refl _), mirrors.tail]
      · rw [liveFrom_of_size_le (Nat.le_of_eq (size_push list content))]
    · rw [isLive_push_of_lt below] at live
      obtain ⟨before, behind⟩ := mirrors.live id was held live
      rw [lastBelow_push (Nat.le_of_lt below), liveFrom_push below, mirrors.tail]
      by_cases here : list.lastBelow list.size = some id
      · rw [if_pos here, (last_iff_nothing_behind live).mp here]
        exact ⟨before, rfl⟩
      · rw [if_neg here]
        refine ⟨before, behind.trans ?_⟩
        cases following : list.liveFrom (id + 1) with
        | none => exact absurd ((last_iff_nothing_behind live).mpr following) here
        | some node => rfl
  · intro id cell found vacant
    obtain ⟨below, vacant, followed⟩ := vacant_of_push vacant
    rw [liveFrom_of_dead (dead_of_vacant vacant)] at followed
    have held := earlier id cell below (dead_of_vacant vacant) found
    have forward := mirrors.vacant id cell held vacant
    cases link : cell.next with
    | none =>
      rw [link] at forward
      exact absurd forward followed
    | some target =>
      rw [link] at forward
      obtain ⟨beyond, inside, opened, same⟩ := forward
      refine ⟨beyond, ?_, ?_, ?_⟩
      · rw [size_push]
        exact Nat.lt_succ_of_lt inside
      · rwa [slots_push inside, if_neg (same ▸ followed)]
      · rw [liveFrom_push below, liveFrom_push (Nat.le_of_lt inside), same]
  · intro id target cell found closed leads
    obtain ⟨below, old⟩ := closed_of_push closed
    rcases old with shut | ⟨vacant, last⟩
    · have held := earlier id cell below (dead_of_closed shut) found
      obtain ⟨beyond, shut'⟩ := mirrors.closed id target cell held shut leads
      exact ⟨beyond, closed_push shut' content⟩
    · have held := earlier id cell below (dead_of_vacant vacant) found
      have forward := mirrors.vacant id cell held vacant
      rw [leads] at forward
      obtain ⟨beyond, inside, _, same⟩ := forward
      rw [liveFrom_of_dead (dead_of_vacant vacant), same] at last
      exact ⟨beyond, by rw [slots_push inside, if_pos last]⟩

end Edits

end Linked

end LiteralRecovery
