import LiteralRecovery.Proofs.Tidy

/-! A state whose methods are found by key, not by position, and whose
remembered values are found by slot. What a table pass does to a state can be
told on this view alone, in two parts: a slot is settled, which may use up its
store, and then the value of the slot is put in place of the read. -/
namespace LiteralRecovery

/-! ### Edits of one listing in either order -/

namespace Listing

variable {α : Type} {list : Listing α}

theorem remove_comm (list : Listing α) (id other : NodeId) :
    (list.remove id).remove other = (list.remove other).remove id := by
  refine ext_slots fun place => ?_
  simp only [getElem?_slots_remove, isLive_remove]
  by_cases same : id = other
  · rw [same]
  · grind

theorem replace_remove_comm (list : Listing α) (id other : NodeId) (value : α) :
    (list.replace id value).remove other = (list.remove other).replace id value := by
  refine ext_slots fun place => ?_
  simp only [getElem?_slots_remove, getElem?_slots_replace, isLive_remove, isLive_replace]
  grind

theorem removeAll_remove_comm (list : Listing α) (nodes : List NodeId) (id : NodeId) :
    (list.removeAll nodes).remove id = (list.remove id).removeAll nodes := by
  induction nodes generalizing list with
  | nil => rfl
  | cons node nodes ih =>
    calc ((list.remove node).removeAll nodes).remove id
        = ((list.remove node).remove id).removeAll nodes := ih _
      _ = ((list.remove id).remove node).removeAll nodes := by rw [remove_comm]

theorem removeAll_comm (list : Listing α) (nodes others : List NodeId) :
    (list.removeAll nodes).removeAll others = (list.removeAll others).removeAll nodes := by
  induction others generalizing list with
  | nil => rfl
  | cons other others ih =>
    calc ((list.removeAll nodes).remove other).removeAll others
        = ((list.remove other).removeAll nodes).removeAll others := by rw [removeAll_remove_comm]
      _ = ((list.remove other).removeAll others).removeAll nodes := ih _

theorem replace_removeAll_comm (list : Listing α) (id : NodeId) (value : α)
    (nodes : List NodeId) :
    (list.replace id value).removeAll nodes = (list.removeAll nodes).replace id value := by
  induction nodes generalizing list with
  | nil => rfl
  | cons node nodes ih =>
    calc ((list.replace id value).remove node).removeAll nodes
        = ((list.remove node).replace id value).removeAll nodes := by rw [replace_remove_comm]
      _ = ((list.remove node).removeAll nodes).replace id value := ih _

end Listing

/-! ### Sets of keys -/

namespace MemberKey

variable {first second third : MemberKey}

theorem before_iff : first.before second = true ↔
    first.name < second.name ∨ first.name = second.name ∧ first.descriptor < second.descriptor := by
  simp [before]

theorem before_irrefl (key : MemberKey) : ¬ key.before key = true := by
  rw [before_iff]
  rintro (less | ⟨_, less⟩)
  · exact String.lt_irrefl _ less
  · exact String.lt_irrefl _ less

theorem before_trans (one : first.before second = true) (two : second.before third = true) :
    first.before third = true := by
  rw [before_iff] at one two ⊢
  rcases one with less | ⟨same, less⟩ <;> rcases two with less' | ⟨same', less'⟩
  · exact .inl (String.lt_trans less less')
  · exact .inl (same' ▸ less)
  · exact .inl (same ▸ less')
  · exact .inr ⟨same.trans same', String.lt_trans less less'⟩

theorem before_of_not_before (different : first ≠ second) (not : ¬ first.before second = true) :
    second.before first = true := by
  have total {left right : String} (less : ¬ left < right) : right = left ∨ right < left := by
    by_cases more : right < left
    · exact .inr more
    · exact .inl (String.le_antisymm (String.not_lt.mp less) (String.not_lt.mp more))
  rw [before_iff] at not ⊢
  rw [not_or, not_and] at not
  rcases total not.1 with same | less
  · rcases total (not.2 same.symm) with same' | less'
    · cases first
      cases second
      cases same
      cases same'
      exact absurd rfl different
    · exact .inr ⟨same, less'⟩
  · exact .inl less

end MemberKey

namespace KeySet

variable {set other : KeySet}

/-- The keys stand in key order, each once. -/
def Ordered (set : KeySet) : Prop :=
  set.keys.Pairwise fun left right => left.before right = true

theorem ordered_empty : Ordered empty := .nil

theorem Ordered.insert (ordered : Ordered set) (key : MemberKey) : Ordered (set.insert key) := by
  have step (keys : List MemberKey)
      (sorted : keys.Pairwise fun left right => left.before right = true) :
      (insertInto key keys).Pairwise fun left right => left.before right = true := by
    induction keys with
    | nil => simp [insertInto]
    | cons head rest ih =>
      obtain ⟨below, tail⟩ := List.pairwise_cons.mp sorted
      simp only [insertInto]
      split
      · exact sorted
      · rename_i different
        split
        · rename_i less
          refine List.pairwise_cons.mpr ⟨fun other member => ?_, sorted⟩
          rcases List.mem_cons.mp member with rfl | later
          · exact less
          · exact MemberKey.before_trans less (below other later)
        · rename_i less
          refine List.pairwise_cons.mpr ⟨fun other member => ?_, ih tail⟩
          rcases mem_insertInto.mp member with rfl | later
          · exact MemberKey.before_of_not_before (Ne.symm different) less
          · exact below other later
  exact step set.keys ordered

/-- A set is known by its members. -/
theorem Ordered.ext (ordered : Ordered set) (ordered' : Ordered other)
    (same : ∀ key, set.contains key = other.contains key) : set = other := by
  have distinct {keys : List MemberKey}
      (sorted : keys.Pairwise fun left right => left.before right = true) : keys.Nodup := by
    apply sorted.imp
    rintro left right below rfl
    exact MemberKey.before_irrefl _ below
  have keys : set.keys = other.keys := by
    refine List.Perm.eq_of_pairwise ?_ ordered ordered' ?_
    · intro left right _ _ below above
      exact absurd (MemberKey.before_trans below above) (MemberKey.before_irrefl _)
    · refine (List.perm_ext_iff_of_nodup (distinct ordered) (distinct ordered')).mpr fun key => ?_
      have here := Bool.eq_iff_iff.mp (same key)
      simpa only [contains, List.contains_iff_mem] using here
  cases set
  cases other
  exact congrArg KeySet.mk keys

theorem Ordered.insert_comm (ordered : Ordered set) (key key' : MemberKey) :
    (set.insert key).insert key' = (set.insert key').insert key := by
  refine Ordered.ext ((ordered.insert key).insert key') ((ordered.insert key').insert key) ?_
  intro member
  rw [Bool.eq_iff_iff]
  simp only [contains_insert]
  exact or_left_comm

end KeySet

theorem MemberRef.eq_of_key {first second : MemberRef} (owner : first.owner = second.owner)
    (key : first.key = second.key) : first = second := by
  cases first
  cases second
  cases owner
  cases key
  rfl

/-! ### Methods by key -/

/-- What the passes over a class read and change, apart from the order of its
methods and the log. -/
@[ext] structure KeyedState where
  name : String
  fields : List Field
  method? : MemberKey → Option Method
  markedFields : KeySet
  markedMethods : KeySet
  removedFields : KeySet
  memo : MemberKey × Int32 → Option Instruction
  stats : Stats

namespace KeyedState

/-- The listing of a method; empty if there is none. -/
def codeOf (state : KeyedState) (key : MemberKey) : Listing Instruction :=
  (state.method? key).elim .empty (·.code)

def editCode (state : KeyedState) (key : MemberKey)
    (edit : Listing Instruction → Listing Instruction) : KeyedState :=
  { state with
    method? := fun other =>
      if other = key then (state.method? key).map fun m => { m with code := edit m.code }
      else state.method? other }

variable {state : KeyedState} {key other : MemberKey}
variable {edit edit' : Listing Instruction → Listing Instruction}

theorem method?_editCode_ne (different : other ≠ key) :
    (state.editCode key edit).method? other = state.method? other := by
  simp [editCode, different]

theorem codeOf_editCode_ne (different : other ≠ key) :
    (state.editCode key edit).codeOf other = state.codeOf other := by
  simp [codeOf, method?_editCode_ne different]

theorem codeOf_editCode_self (present : (state.method? key).isSome = true) :
    (state.editCode key edit).codeOf key = edit (state.codeOf key) := by
  obtain ⟨method, held⟩ := Option.isSome_iff_exists.mp present
  simp [codeOf, editCode, held]

theorem isSome_method?_editCode :
    ((state.editCode key edit).method? other).isSome = (state.method? other).isSome := by
  by_cases same : other = key <;> simp [editCode, same]

theorem editCode_comm (commute : key = other → ∀ code, edit' (edit code) = edit (edit' code)) :
    (state.editCode key edit).editCode other edit' =
      (state.editCode other edit').editCode key edit := by
  refine KeyedState.ext rfl rfl ?_ rfl rfl rfl rfl rfl
  funext place
  by_cases same : key = other
  · subst same
    by_cases here : place = key
    · cases held : state.method? key <;> simp [editCode, here, held, commute rfl]
    · simp [editCode, here]
  · by_cases here : place = key <;> by_cases there : place = other
    · exact absurd (here.symm.trans there) same
    all_goals simp_all [editCode, eq_comm]

end KeyedState

namespace RecoveryState

def keyed (state : RecoveryState) : KeyedState where
  name := state.cls.name
  fields := state.cls.fields
  method? := state.cls.method?
  markedFields := state.markedFields
  markedMethods := state.markedMethods
  removedFields := state.removedFields
  memo slot := state.memo.lookup slot
  stats := state.stats

end RecoveryState

namespace Class

variable {cls : Class} {position : Nat} {method : Method} {key : MemberKey}

/-- The methods around the one at a position have other keys. -/
theorem split_of_getElem? (distinct : (cls.methods.map Method.key).Nodup)
    (held : cls.methods[position]? = some method) :
    ∃ front back, cls.methods = front ++ method :: back ∧ front.length = position ∧
      ∀ other ∈ front, other.key ≠ method.key := by
  obtain ⟨valid, found⟩ := List.getElem?_eq_some_iff.mp held
  obtain ⟨front, here, back, split, length⟩ := exists_split valid
  have same : here = method := by
    rw [← found]
    simp [split, ← length]
  subst same
  refine ⟨front, back, split, length, fun other member equal => ?_⟩
  rw [split, List.map_append, List.map_cons] at distinct
  have apart := (List.nodup_append.mp distinct).2.2
  exact apart other.key (List.mem_map_of_mem member) here.key List.mem_cons_self equal

/-- An edit by position is an edit by key. -/
theorem method?_editCode (distinct : (cls.methods.map Method.key).Nodup)
    (held : cls.methods[position]? = some method)
    (edit : Listing Instruction → Listing Instruction) :
    (cls.editCode position edit).method? = fun key =>
      if key = method.key then (cls.method? method.key).map fun m => { m with code := edit m.code }
      else cls.method? key := by
  funext key
  obtain ⟨front, back, split, rfl, apart⟩ := split_of_getElem? distinct held
  rw [method?_of_getElem distinct held, method?, methods_editCode_of_split edit split,
    List.find?_append, List.find?_cons]
  by_cases same : key = method.key
  · subst same
    have skipped : front.find? (fun other => decide (other.key = method.key)) = none := by
      simpa [List.find?_eq_none] using apart
    have named : ({ method with code := edit method.code } : Method).key = method.key := rfl
    simp [skipped, named]
  · have other : ¬ ({ method with code := edit method.code } : Method).key = key := Ne.symm same
    have other' : ¬ method.key = key := Ne.symm same
    simp [same, other, other', method?, split, List.find?_append]

end Class

/-- No two methods share a key, and the initializer is the method with key
`home`. -/
structure Seated (home : MemberKey) (state : RecoveryState) : Prop where
  distinct : (state.cls.methods.map Method.key).Nodup
  initializer : ∃ method, state.cls.methods[state.initializer]? = some method ∧ method.key = home

namespace RecoveryState

variable {state : RecoveryState} {position : Nat} {method : Method} {home : MemberKey}

theorem codeOf_keyed (distinct : (state.cls.methods.map Method.key).Nodup)
    (held : state.cls.methods[position]? = some method) :
    state.keyed.codeOf method.key = state.cls.codeAt position := by
  have found : state.keyed.method? method.key = some method :=
    Class.method?_of_getElem distinct held
  simp [KeyedState.codeOf, found, Class.codeAt, held]

theorem keyed_editCode (distinct : (state.cls.methods.map Method.key).Nodup)
    (held : state.cls.methods[position]? = some method)
    (edit : Listing Instruction → Listing Instruction) :
    ({ state with cls := state.cls.editCode position edit } : RecoveryState).keyed =
      state.keyed.editCode method.key edit := by
  have methods := Class.method?_editCode distinct held edit
  simp only [keyed, KeyedState.editCode, methods]
  rfl

theorem codeOf_home (seated : Seated home state) :
    state.keyed.codeOf home = state.initializerCode := by
  obtain ⟨method, held, rfl⟩ := seated.initializer
  exact codeOf_keyed seated.distinct held

theorem keyed_editInitializer (seated : Seated home state)
    (edit : Listing Instruction → Listing Instruction) :
    (state.editInitializer edit).keyed = state.keyed.editCode home edit := by
  obtain ⟨method, held, rfl⟩ := seated.initializer
  exact keyed_editCode seated.distinct held edit

end RecoveryState

/-! ### A table pass by key -/

namespace KeyedState

open StaticTable

/-- A slot of a table: its field and the index. -/
abbrev TableSlot := MemberRef × Int32

/-- What a store leaves in its slot, with the helper it took; nothing if the
helper is missing. -/
def stored? (state : KeyedState) (store : StoreSite) : Option (Instruction × Option MemberKey) :=
  match store.value, store.helper with
  | .stringConst cipher, some helper =>
    (state.method? helper.key).map fun method =>
      (.stringConst (Cipher.decrypt state.name helper.name method.code cipher), some helper.key)
  | value, _ => some (value, none)

/-- A store that is to be used up, its value and its helper. -/
structure Taking where
  nodes : List NodeId
  value : Instruction
  helper : Option MemberKey

/-- What settling a slot takes out: nothing where the slot is remembered or
nothing is stored, and no answer where that fails. -/
def due (home : MemberKey) (kind : ElementKind) (state : KeyedState) (slot : TableSlot) :
    Option (Option Taking) :=
  if (state.memo (slot.1.key, slot.2)).isSome then some none
  else
    match storeAt? (state.codeOf home) slot.1 slot.2 kind state.name with
    | none => some none
    | some store =>
      if (state.fields.find? (·.key = slot.1.key)).isNone then none
      else (state.stored? store).map fun found => some ⟨store.nodes, found.1, found.2⟩

/-- Uses up a store. -/
def take (home : MemberKey) (state : KeyedState) (slot : TableSlot) (taking : Taking) :
    KeyedState :=
  { state.editCode home (·.removeAll taking.nodes) with
    markedFields := state.markedFields.insert slot.1.key
    markedMethods := taking.helper.elim state.markedMethods state.markedMethods.insert
    memo := fun other =>
      if other = (slot.1.key, slot.2) then some taking.value else state.memo other }

/-- Uses up the store of a slot unless that has been done or there is none. -/
def settle (home : MemberKey) (kind : ElementKind) (state : KeyedState) (slot : TableSlot) :
    Option KeyedState :=
  (due home kind state slot).map fun taking => taking.elim state (state.take home slot)

/-- The value of a settled slot. -/
def valueOf (kind : ElementKind) (state : KeyedState) (slot : TableSlot) : Instruction :=
  (state.memo (slot.1.key, slot.2)).getD (.zero kind)

/-- Counts one read of a settled slot. -/
def tally (kind : ElementKind) (remembered : Bool) (stats : Stats) : Stats :=
  if remembered then count kind stats else { stats with defaulted := stats.defaulted + 1 }

/-- Puts the value of a settled slot in place of a read of it. -/
def put (kind : ElementKind) (state : KeyedState) (spot : MemberKey × NodeId) (site : ReadSite) :
    KeyedState :=
  { state.editCode spot.1 fun code =>
      (code.removeAll site.tail).replace spot.2 (state.valueOf kind (site.field, site.index)) with
    stats := tally kind (state.memo (site.field.key, site.index)).isSome state.stats }

/-- Replaces the read that starts at a node, if there is one. -/
def advance (home : MemberKey) (kind : ElementKind) (state : KeyedState)
    (spot : MemberKey × NodeId) : Option KeyedState :=
  match read? (state.codeOf spot.1) spot.2 state.name kind with
  | none => some state
  | some site =>
    (settle home kind state (site.field, site.index)).map fun settled => settled.put kind spot site

end KeyedState

/-- The state after a place of a walk; none if the walk stops there. -/
def Step.after? {σ ε : Type} (state : σ) : Step σ ε → Option σ
  | .skip => some state
  | .change next => some next
  | .stop _ => none

namespace StaticTable

open KeyedState

variable {home : MemberKey} {kind : ElementKind} {state : RecoveryState}

theorem stored?_keyed (state : RecoveryState) (store : StoreSite) :
    state.keyed.stored? store = (storedValue state.cls store).toOption := by
  obtain ⟨nodes, index, value, helper⟩ := store
  cases value with
  | stringConst cipher =>
    cases helper with
    | none => rfl
    | some helper =>
      have same : state.keyed.method? helper.key = state.cls.method? helper.key := rfl
      simp only [stored?, storedValue, same]
      cases state.cls.method? helper.key <;> rfl
  | _ => rfl

theorem keyed_consume (seated : Seated home state) (site : ReadSite) (store : StoreSite)
    (value : Instruction) (helper : Option MemberKey) :
    (consume kind state site store value helper).keyed =
      { state.keyed.take home (site.field, site.index) ⟨store.nodes, value, helper⟩ with
        stats := count kind state.stats } := by
  have edited := RecoveryState.keyed_editInitializer seated (·.removeAll store.nodes)
  have methods := congrArg KeyedState.method? edited
  have memo : (fun slot => (consume kind state site store value helper).memo.lookup slot) =
      fun slot => if slot = (site.field.key, site.index) then some value
        else state.memo.lookup slot := by
    funext slot
    by_cases same : slot = (site.field.key, site.index)
    · simp [consume, same]
    · have other : (slot == (site.field.key, site.index)) = false := beq_false_of_ne same
      simp only [consume, List.lookup_cons, other, same, if_false]
      rfl
  simp only [RecoveryState.keyed, KeyedState.take, memo] at methods ⊢
  simp only [consume, methods]
  rfl

/-- Resolving a read settles its slot and counts the read. -/
theorem settle_of_resolve {site : ReadSite} {value : Instruction} {after : RecoveryState}
    (seated : Seated home state) (found : resolve kind state site = .ok (value, after)) :
    ∃ settled, settle home kind state.keyed (site.field, site.index) = some settled ∧
      settled.valueOf kind (site.field, site.index) = value ∧
      after.keyed = { settled with
        stats := tally kind (settled.memo (site.field.key, site.index)).isSome settled.stats } := by
  have start := RecoveryState.codeOf_home seated
  have name : state.keyed.name = state.cls.name := rfl
  rcases resolve_cases found with ⟨known, rfl⟩ | ⟨unknown, missing, rfl, rfl⟩ |
    ⟨unknown, store, helper, hit, declared, held, rfl⟩
  · have known' : state.keyed.memo (site.field.key, site.index) = some value := known
    refine ⟨state.keyed, by simp [settle, due, known'], by simp [valueOf, known'], ?_⟩
    simp only [tally, known', Option.isSome_some, if_true]
    rfl
  · have unknown' : state.keyed.memo (site.field.key, site.index) = none := unknown
    refine ⟨state.keyed, by simp [settle, due, unknown', start, name, missing],
      by simp [valueOf, unknown'], ?_⟩
    simp only [tally, unknown', Option.isSome_none, Bool.false_eq_true, if_false]
    rfl
  · have unknown' : state.keyed.memo (site.field.key, site.index) = none := unknown
    have declared' : ¬ (state.keyed.fields.find? (·.key = site.field.key)).isNone = true := by
      rw [Option.isNone_iff_eq_none]
      exact Option.isSome_iff_ne_none.mp declared
    refine ⟨state.keyed.take home (site.field, site.index) ⟨store.nodes, value, helper⟩, ?_, ?_, ?_⟩
    · simp only [settle, due, unknown', start, name, hit, Option.isSome_none, Bool.false_eq_true,
        if_false, declared', stored?_keyed, held]
      rfl
    · simp [valueOf, KeyedState.take]
    · rw [keyed_consume seated]
      simp only [tally, KeyedState.take, if_true, Option.isSome_some]
      rfl

theorem settle_of_error {site : ReadSite} {error : RecoveryError} (seated : Seated home state)
    (failed : resolve kind state site = .error error) :
    settle home kind state.keyed (site.field, site.index) = none := by
  have start := RecoveryState.codeOf_home seated
  have name : state.keyed.name = state.cls.name := rfl
  unfold resolve at failed
  split at failed
  · cases failed
  · rename_i unknown
    have unknown' : state.keyed.memo (site.field.key, site.index) = none := unknown
    split at failed
    · cases failed
    · rename_i store hit
      simp only [settle, due, unknown', start, name, hit, Option.isSome_none, Bool.false_eq_true,
        if_false, Option.map_eq_none_iff]
      split at failed
      · rename_i absent
        exact if_pos absent
      · rename_i declared
        split at failed
        · rename_i reason held
          rw [stored?_keyed, held]
          simp [Except.toOption]
        · cases failed

/-- A step of a table pass, told by key. -/
theorem advance_keyed {place : Place} {method : Method} (seated : Seated home state)
    (held : state.cls.methods[place.method]? = some method) :
    advance home kind state.keyed (method.key, place.node) =
      ((step kind state place).after? state).map RecoveryState.keyed := by
  have code := RecoveryState.codeOf_keyed seated.distinct held
  have name : state.keyed.name = state.cls.name := rfl
  cases read : read? (state.cls.codeAt place.method) place.node state.cls.name kind with
  | none => simp [advance, step, code, name, read, Step.after?]
  | some site =>
    cases found : resolve kind state site with
    | error error =>
      simp [advance, step, code, name, read, found, settle_of_error seated found, Step.after?]
    | ok answer =>
      obtain ⟨value, after⟩ := answer
      obtain ⟨settled, done, rfl, same⟩ := settle_of_resolve seated found
      -- the store may have been taken out of this very method: only its key is as before
      have declarations := (Class.outline_eq_iff.mp
        (RecoveryState.frame_outline (resolve_frame found))).2.2
      have keys := Method.map_key_of_declarations declarations
      have there := congrArg (·[place.method]?) keys
      simp only [List.getElem?_map, held, Option.map_some] at there
      obtain ⟨now, here, key⟩ := Option.map_eq_some_iff.mp there
      have edited := RecoveryState.keyed_editCode (keys ▸ seated.distinct) here fun code =>
        (code.removeAll site.tail).replace place.node
          (settled.valueOf kind (site.field, site.index))
      rw [key, same] at edited
      simp only [advance, step, code, name, read, found, done, Step.after?, Option.map_some]
      exact congrArg some edited.symm

end StaticTable

end LiteralRecovery
