import LiteralRecovery.Proofs.LinkedSlots
import LiteralRecovery.Proofs.ListingCode
import Mathlib.Data.List.Induction

/-! Listings after any history of additions, replacements and removals, with
whatever node numbers. The listing and the linked list go through it side by
side; nothing that follows a link ever faults, and both answer alike. As long as
nothing is added after a removal, every position leads to the next live node,
also one that was vacated. -/
namespace LiteralRecovery

/-- One edit of a listing. -/
inductive Action (α : Type) where
  | push (content : α)
  | replace (id : NodeId) (content : α)
  | remove (id : NodeId)

/-- What an edit answers: the number of a new node, or what a node held. -/
inductive Reply (α : Type) where
  | number (id : NodeId)
  | held (content : Option α)
deriving DecidableEq

namespace Listing

variable {α : Type}

def perform (list : Listing α) : Action α → Listing α
  | .push content => list.push content
  | .replace id content => list.replace id content
  | .remove id => list.remove id

def reply (list : Listing α) : Action α → Reply α
  | .push _ => .number list.size
  | .replace id _ | .remove id => .held (list.get? id)

/-- The replies to edits made one after the other. -/
def replies (list : Listing α) : List (Action α) → List (Reply α)
  | [] => []
  | action :: rest => list.reply action :: (list.perform action).replies rest

/-- The listing that a history leads to. -/
def after (actions : List (Action α)) : Listing α := actions.foldl perform empty

end Listing

namespace Linked

variable {α : Type} {chain : Linked α} {list : Listing α}

def perform (chain : Linked α) : Action α → Except Fault (Reply α × Linked α)
  | .push content => do
    let (id, later) ← chain.push content
    return (.number id, later)
  | .replace id content => do
    let (old, later) ← chain.replace id content
    return (.held old, later)
  | .remove id => do
    let (old, later) ← chain.remove id
    return (.held old, later)

/-- Makes edits one after the other. -/
def performAll (chain : Linked α) : List (Action α) → Except Fault (List (Reply α) × Linked α)
  | [] => .ok ([], chain)
  | action :: rest => do
    let (reply, later) ← chain.perform action
    let (replies, last) ← later.performAll rest
    return (reply :: replies, last)

theorem Mirrors.perform (mirrors : chain.Mirrors list) (action : Action α) :
    ∃ later, chain.perform action = .ok (list.reply action, later) ∧
      later.Mirrors (list.perform action) := by
  cases action with
  | push content =>
    obtain ⟨later, pushed, mirrors'⟩ := mirrors.push content
    refine ⟨later, ?_, mirrors'⟩
    simp only [Linked.perform, pushed]
    rfl
  | replace id content =>
    obtain ⟨later, replaced, mirrors'⟩ := mirrors.replace id content
    refine ⟨later, ?_, mirrors'⟩
    simp only [Linked.perform, replaced]
    rfl
  | remove id =>
    obtain ⟨later, removed, mirrors'⟩ := mirrors.remove id
    refine ⟨later, ?_, mirrors'⟩
    simp only [Linked.perform, removed]
    rfl

theorem Mirrors.performAll (mirrors : chain.Mirrors list) (actions : List (Action α)) :
    ∃ later, chain.performAll actions = .ok (list.replies actions, later) ∧
      later.Mirrors (actions.foldl Listing.perform list) := by
  induction actions generalizing chain list with
  | nil => exact ⟨chain, rfl, mirrors⟩
  | cons action rest ih =>
    obtain ⟨next, performed, mirrors'⟩ := mirrors.perform action
    obtain ⟨last, rested, mirrors''⟩ := ih mirrors'
    refine ⟨last, ?_, mirrors''⟩
    simp only [Linked.performAll, performed, bind, Except.bind, rested]
    rfl

/-- The linked list answers every question as the listing does, without a fault,
and an edit of a node that is not live leaves it as it is. -/
structure Agrees (chain : Linked α) (list : Listing α) : Prop where
  get : ∀ id, chain.get? id = list.get? id
  items : chain.items = .ok list.items
  length : chain.length = list.length
  first : chain.head = list.first
  next : ∀ id, chain.next id = .ok (list.next id)
  resolve : ∀ id, chain.resolve id = .ok (list.resolve id)
  window : ∀ more id, chain.window more id = .ok (list.window (more + 1) id)
  idle : ∀ id content, list.isLive id = false →
    chain.remove id = .ok (none, chain) ∧ chain.replace id content = .ok (none, chain)

theorem Mirrors.agrees (mirrors : chain.Mirrors list) : chain.Agrees list where
  get := mirrors.get
  items := mirrors.items
  length := mirrors.length
  first := mirrors.head
  next := mirrors.next
  resolve := mirrors.resolve
  window := mirrors.window
  idle id content dead := by
    have missing : chain.get? id = none := by
      simpa [mirrors.get, Listing.isLive] using dead
    simp only [Linked.remove, Linked.replace, missing, and_self]

end Linked

/-! ### Additions before removals -/

namespace Listing

variable {α : Type} {actions : List (Action α)}

/-- What was taken out before an addition was not there. -/
def AddsFirst (actions : List (Action α)) : Prop :=
  ∀ early id middle content late,
    actions = early ++ .remove id :: (middle ++ .push content :: late) →
      (after early).isLive id = false

theorem after_concat (actions : List (Action α)) (action : Action α) :
    after (actions ++ [action]) = (after actions).perform action :=
  List.foldl_concat ..

/-- A history without a removal leaves every slot live. -/
theorem full_of_no_removal
    (idle : ∀ early id late, actions = early ++ .remove id :: late →
      (after early).isLive id = false) :
    ∀ id < (after actions).size, (after actions).isLive id = true := by
  induction actions using List.reverseRecOn with
  | nil => exact fun id inside => absurd inside (Nat.not_lt_zero id)
  | append_singleton actions action ih =>
    have full := ih fun early id late split => idle early id (late ++ [action]) (by simp [split])
    rw [after_concat]
    intro id inside
    cases action with
    | push content =>
      rw [perform, size_push] at inside
      rcases Nat.eq_or_lt_of_le (Nat.le_of_lt_succ inside) with rfl | below
      · exact (isLive_push _ _ _).mpr (.inl rfl)
      · exact (isLive_push _ _ _).mpr (.inr (full id below))
    | replace other content =>
      rw [perform, size_replace] at inside
      rw [perform, isLive_replace]
      exact full id inside
    | remove other =>
      have dead : ¬ (after actions).isLive other = true := by simp [idle actions other [] rfl]
      rw [perform, remove, if_neg dead] at inside ⊢
      exact full id inside

/-- Only an addition after a removal closes a slot. -/
theorem open_of_addsFirst (adds : AddsFirst actions) : (after actions).Open := by
  induction actions using List.reverseRecOn with
  | nil => exact fun id closed => absurd (lt_size_of_slot closed) (Nat.not_lt_zero id)
  | append_singleton actions action ih =>
    have opened := ih fun early id middle content late split =>
      adds early id middle content (late ++ [action]) (by simp [split])
    rw [after_concat]
    intro id closed
    cases action with
    | push content =>
      have full : ∀ id < (after actions).size, (after actions).isLive id = true :=
        full_of_no_removal fun early id late split =>
          adds early id late content [] (by simp [split])
      obtain ⟨inside, shut | ⟨vacant, _⟩⟩ := closed_of_push closed
      · exact opened id shut
      · have live := full id inside
        rw [dead_of_vacant vacant] at live
        cases live
    | replace other content => exact opened id (((thins_replace _ _ _).closed id).mp closed)
    | remove other => exact opened id (((thins_remove _ _).closed id).mp closed)

/-- Additions first and then none is one such history. -/
theorem addsFirst_of_edits {edits : List (Action α)} (contents : List α)
    (settled : ∀ content, .push content ∉ edits) :
    AddsFirst (contents.map .push ++ edits) := by
  intro early id middle content late split
  exfalso
  rcases List.append_eq_append_iff.mp split with ⟨rest, rfl, behind⟩ | ⟨rest, pushes, behind⟩
  · exact settled content (by simp [behind])
  · cases rest with
    | nil =>
      rw [List.nil_append] at behind
      exact settled content (by simp [← behind])
    | cons action rest =>
      obtain ⟨rfl, _⟩ := List.cons.inj behind
      have member : Action.remove id ∈ contents.map Action.push := by simp [pushes]
      simp at member

theorem leads_of_open {list : Listing α} (unclosed : list.Open) {id : NodeId}
    (inside : id < list.size) :
    list.Leads (id + 1) (list.next id) ∧ list.Leads id (list.resolve id) := by
  rw [next_of_open inside (unclosed id), resolve_eq_liveFrom unclosed]
  exact ⟨list.leads_liveFrom (id + 1), list.leads_liveFrom id⟩

/-- After any history the listing is in order, and the linked list that went
through the same history gave the same replies and answers every question as the
listing does, so that no walk along its links leaves the cells or fails to end.
If nothing was added after a removal, every position within the listing leads to
the least live node behind it. -/
theorem history_keeps_order (actions : List (Action α)) :
    (∃ chain, Linked.empty.performAll actions = .ok (empty.replies actions, chain) ∧
      chain.Agrees (after actions)) ∧
    (after actions).Orderly ∧
    (AddsFirst actions → ∀ id < (after actions).size,
      (after actions).Leads (id + 1) ((after actions).next id) ∧
        (after actions).Leads id ((after actions).resolve id)) := by
  obtain ⟨chain, performed, mirrors⟩ := Linked.mirrors_empty.performAll actions
  exact ⟨⟨chain, performed, mirrors.agrees⟩, orderly _,
    fun adds id inside => leads_of_open (open_of_addsFirst adds) inside⟩

/-- Four nodes of which two neighbours are taken out, and one that is not there. -/
def thinned : List (Action Nat) :=
  [10, 20, 30, 40].map .push ++ [.remove 1, .remove 2, .remove 7]

/-- A vacated position leads on to the last node. It leads nowhere once that is
gone too, not even when another node is added. -/
theorem thinned_leads :
    AddsFirst thinned ∧ (after thinned).Leads 2 ((after thinned).next 1) ∧
    (after thinned).next 1 = some 3 ∧
    (after (thinned ++ [.remove 3, .push 50])).next 1 = none := by
  have adds : AddsFirst thinned := addsFirst_of_edits [10, 20, 30, 40] (by simp)
  exact ⟨adds, ((history_keeps_order thinned).2.2 adds 1 (by decide)).1, by decide, by decide⟩

end Listing

end LiteralRecovery
