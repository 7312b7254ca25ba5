import LiteralRecovery.Class.Basic
import LiteralRecovery.Proofs.LiveView
import Mathlib.Algebra.GroupWithZero.Nat

/-! Edits of the listing of one method. Everything else about a class, its
outline, stays as it was, and so do the listings of the other methods. The
edits of the passes only thin out: slots stay, and no node comes to life. -/
namespace LiteralRecovery

namespace Listing

variable {α : Type} {first second third : Listing α}

/-- The later listing has the slots of the earlier one, the same ones of them
closed, and no other live nodes. -/
structure Thins (before after : Listing α) : Prop where
  size : after.size = before.size
  live : ∀ id, after.isLive id = true → before.isLive id = true
  closed : ∀ id : NodeId, after.slots[id]? = some Slot.closed ↔ before.slots[id]? = some Slot.closed

theorem Thins.refl (list : Listing α) : Thins list list :=
  ⟨rfl, fun _ live => live, fun _ => Iff.rfl⟩

theorem Thins.trans (early : Thins first second) (late : Thins second third) : Thins first third :=
  ⟨late.size.trans early.size, fun id live => early.live id (late.live id live),
    fun id => (late.closed id).trans (early.closed id)⟩

/-- Writing anything but a closed slot over a live one closes nothing. -/
private theorem closed_set {list : Listing α} {id other : NodeId} {slot : Slot α}
    (live : list.isLive id = true) (fresh : slot ≠ .closed) :
    (list.slots.setIfInBounds id slot)[other]? = some Slot.closed ↔
      list.slots[other]? = some Slot.closed := by
  rw [Array.getElem?_setIfInBounds]
  split
  · rename_i same
    subst same
    obtain ⟨content, held⟩ := isLive_iff.mp live
    obtain ⟨old, found, inside⟩ := Option.bind_eq_some_iff.mp held
    have bound : id < list.slots.size := lt_size_of_live live
    rw [if_pos bound, found]
    cases old with
    | live content => simp [fresh]
    | vacant => cases inside
    | closed => cases inside
  · exact Iff.rfl

theorem thins_remove (list : Listing α) (id : NodeId) : Thins list (list.remove id) := by
  refine ⟨size_remove list id, fun other live => ?_, fun other => ?_⟩
  · rw [isLive, get?_remove] at live
    split at live
    · cases live
    · exact live
  · rw [remove]
    split
    · exact closed_set (by assumption) (by simp)
    · exact Iff.rfl

theorem thins_removeAll (list : Listing α) (nodes : List NodeId) :
    Thins list (list.removeAll nodes) := by
  induction nodes generalizing list with
  | nil => exact .refl list
  | cons node nodes ih => exact (thins_remove list node).trans (ih (list.remove node))

theorem thins_replace (list : Listing α) (id : NodeId) (value : α) :
    Thins list (list.replace id value) := by
  refine ⟨size_replace list id value, fun other live => ?_, fun other => ?_⟩
  · by_cases held : list.isLive id = true
    · rw [isLive, get?_replace held] at live
      split at live
      · rename_i same
        exact same ▸ held
      · exact live
    · rwa [replace, if_neg held] at live
  · rw [replace]
    split
    · exact closed_set (by assumption) (by simp)
    · exact Iff.rfl

section Resolve

variable {before after : Listing α} {id target : NodeId}

theorem next_iff {list : Listing α} :
    list.next id = some target ↔ id < list.size ∧ list.slots[id]? ≠ some Slot.closed ∧
      list.liveFrom (id + 1) = some target := by
  unfold next
  by_cases bound : id < list.size
  · have inside : list.slots[id]? = some list.slots[id] := Array.getElem?_eq_getElem bound
    cases slot : list.slots[id] <;> simp [inside, slot, bound]
  · have outside : list.slots[id]? = none :=
      Array.getElem?_eq_none (Nat.le_of_not_lt bound)
    simp [outside, bound]

/-- Where a position leads does not change while the node it leads to lives. -/
theorem Thins.resolve (thins : Thins before after) (leads : before.resolve id = some target)
    (live : after.isLive target = true) : after.resolve id = some target := by
  unfold Listing.resolve at leads ⊢
  split at leads
  · cases leads
    rw [if_pos live]
  · rename_i dead
    have still : ¬ after.isLive id = true := fun alive => dead (thins.live id alive)
    rw [if_neg still]
    obtain ⟨bound, opened, found⟩ := next_iff.mp leads
    refine next_iff.mpr ⟨thins.size ▸ bound, fun shut => opened ((thins.closed id).mp shut), ?_⟩
    obtain ⟨_, above, gap⟩ := liveFrom_eq_some.mp found
    refine liveFrom_eq_some.mpr ⟨live, above, fun between beyond under => ?_⟩
    by_contra alive
    have lived := thins.live between (by simpa using alive)
    rw [gap between beyond under] at lived
    cases lived

/-- A position that led nowhere leads nowhere. -/
theorem Thins.resolve_none (thins : Thins before after) (lost : before.resolve id = none) :
    after.resolve id = none := by
  unfold Listing.resolve at lost ⊢
  split at lost
  · cases lost
  · rename_i dead
    have still : ¬ after.isLive id = true := fun alive => dead (thins.live id alive)
    rw [if_neg still]
    by_contra found
    obtain ⟨target, leads⟩ := Option.ne_none_iff_exists'.mp found
    obtain ⟨bound, opened, found⟩ := next_iff.mp leads
    obtain ⟨live, above, _⟩ := liveFrom_eq_some.mp found
    -- the node found now was live before, so the search would not have failed
    have some : before.liveFrom (id + 1) ≠ none := by
      intro none
      have dead := liveFrom_eq_none.mp none target above
      rw [thins.live target live] at dead
      cases dead
    obtain ⟨earlier, found'⟩ := Option.ne_none_iff_exists'.mp some
    have leads' := next_iff.mpr ⟨thins.size ▸ bound,
      fun shut => opened ((thins.closed id).mpr shut), found'⟩
    rw [lost] at leads'
    cases leads'

/-- Where a position leads is the same before and after, if it led to a node
that is still there or led nowhere. -/
theorem Thins.resolve_iff (thins : Thins before after)
    (lands : ∀ landing, before.resolve id = some landing → after.isLive landing = true) :
    after.resolve id = some target ↔ before.resolve id = some target := by
  cases led : before.resolve id with
  | none => rw [thins.resolve_none led]
  | some other => rw [thins.resolve led (lands other led)]

end Resolve

end Listing

namespace Method

/-- What a method is apart from its listing. -/
def declaration (method : Method) : String × String × MemberInfo :=
  (method.name, method.descriptor, method.info)

theorem map_key_of_declarations {methods methods' : List Method}
    (same : methods'.map declaration = methods.map declaration) :
    methods'.map key = methods.map key := by
  have project := congrArg (List.map fun entry : String × String × MemberInfo =>
    (⟨entry.1, entry.2.1⟩ : MemberKey)) same
  rw [List.map_map, List.map_map] at project
  exact project

end Method

namespace Class

variable {cls : Class} {position other : Nat} {edit : Listing Instruction → Listing Instruction}

/-- A class with the given members, from a file that says nothing else. -/
def ofMembers (name : String) (fields : List MemberKey)
    (methods : List (MemberKey × List Instruction)) : Class where
  name := name
  fields := fields.map fun key => ⟨key.name, key.descriptor, ⟨0, 0, 0, []⟩⟩
  methods := methods.map fun (key, code) =>
    ⟨key.name, key.descriptor, .ofList code, ⟨0, 0, 0, []⟩⟩
  file := ⟨0, 52, ⟨#[]⟩, 0, 0, 0, [], [], [], []⟩
  index := .empty

/-- What a class is apart from the listings of its methods. -/
def outline (cls : Class) : String × List Field × List (String × String × MemberInfo) :=
  (cls.name, cls.fields, cls.methods.map Method.declaration)

theorem outline_eq_iff {cls' : Class} :
    cls'.outline = cls.outline ↔ cls'.name = cls.name ∧ cls'.fields = cls.fields ∧
      cls'.methods.map Method.declaration = cls.methods.map Method.declaration := by
  simp [outline]

private theorem declaration_modify (methods : List Method) (position : Nat) :
    (methods.modify position fun m => { m with code := edit m.code }).map Method.declaration =
      methods.map Method.declaration := by
  refine List.ext_getElem? fun index => ?_
  rw [List.getElem?_map, List.getElem?_map, List.getElem?_modify]
  cases methods[index]? with
  | none => rfl
  | some method => by_cases same : position = index <;> simp [same, Method.declaration]

@[simp] theorem outline_editCode (cls : Class) (position : Nat)
    (edit : Listing Instruction → Listing Instruction) :
    (cls.editCode position edit).outline = cls.outline := by
  simp [outline, editCode, declaration_modify]

@[simp] theorem name_editCode (cls : Class) (position : Nat)
    (edit : Listing Instruction → Listing Instruction) :
    (cls.editCode position edit).name = cls.name := rfl

@[simp] theorem fields_editCode (cls : Class) (position : Nat)
    (edit : Listing Instruction → Listing Instruction) :
    (cls.editCode position edit).fields = cls.fields := rfl

@[simp] theorem length_methods_editCode (cls : Class) (position : Nat)
    (edit : Listing Instruction → Listing Instruction) :
    (cls.editCode position edit).methods.length = cls.methods.length := by
  simp [editCode]

theorem codeAt_editCode_ne (different : position ≠ other) :
    (cls.editCode position edit).codeAt other = cls.codeAt other := by
  simp only [codeAt, editCode, List.getElem?_modify]
  cases cls.methods[other]? <;> simp [different]

theorem codeAt_editCode_self (valid : position < cls.methods.length) :
    (cls.editCode position edit).codeAt position = edit (cls.codeAt position) := by
  simp [codeAt, editCode, valid]

theorem codeAt_of_not_lt (missing : ¬ position < cls.methods.length) :
    cls.codeAt position = .empty := by
  simp [codeAt, List.getElem?_eq_none (Nat.le_of_not_lt missing)]

theorem editCode_of_not_lt (missing : ¬ position < cls.methods.length) :
    cls.editCode position edit = cls := by
  have same : cls.methods.modify position (fun m => { m with code := edit m.code }) = cls.methods :=
    List.modify_eq_self (Nat.le_of_not_lt missing)
  simp only [editCode, same]

@[simp] theorem editCode_codeAt (cls : Class) (position : Nat) :
    cls.editCode position (fun _ => cls.codeAt position) = cls := by
  by_cases valid : position < cls.methods.length
  · have same : cls.methods.modify position (fun m => { m with code := cls.codeAt position }) =
        cls.methods := by
      refine List.ext_getElem? fun index => ?_
      rw [List.getElem?_modify]
      by_cases here : position = index
      · subst here
        simp [codeAt, valid]
      · simp [here]
    simp only [editCode, same]
  · exact editCode_of_not_lt valid

theorem method?_of_getElem {method : Method} (distinct : (cls.methods.map Method.key).Nodup)
    (present : cls.methods[position]? = some method) : cls.method? method.key = some method := by
  have member := List.mem_of_getElem? present
  have found : (cls.method? method.key).isSome = true := by
    rw [method?, List.find?_isSome]
    exact ⟨method, member, by simp⟩
  obtain ⟨other, hit⟩ := Option.isSome_iff_exists.mp found
  have same : other.key = method.key := by simpa using List.find?_some hit
  rw [hit, List.inj_on_of_nodup_map distinct (List.mem_of_find?_eq_some hit) member same]

theorem codeAt_of_split {front back : List Method} {method : Method}
    (split : cls.methods = front ++ method :: back) : cls.codeAt front.length = method.code := by
  simp [codeAt, split]

theorem methods_editCode_of_split {front back : List Method} {method : Method}
    (edit : Listing Instruction → Listing Instruction)
    (split : cls.methods = front ++ method :: back) :
    (cls.editCode front.length edit).methods =
      front ++ { method with code := edit method.code } :: back := by
  simp only [editCode, split]
  clear split
  induction front with
  | nil => rfl
  | cons first front ih => simpa using ih

theorem thins_editCode
    (thins : Listing.Thins (cls.codeAt position) (edit (cls.codeAt position))) (other : Nat) :
    Listing.Thins (cls.codeAt other) ((cls.editCode position edit).codeAt other) := by
  by_cases same : position = other
  · subst same
    by_cases valid : position < cls.methods.length
    · rwa [codeAt_editCode_self valid]
    · rw [editCode_of_not_lt valid]
      exact .refl _
  · rw [codeAt_editCode_ne same]
    exact .refl _

/-! ### Weight -/

theorem weight_eq_sum (cls : Class) : cls.weight = (cls.methods.map (·.code.length)).sum := by
  rw [List.sum_eq_foldl_nat, List.foldl_map]
  rfl

private theorem foldl_add_length (methods : List Method) (total : Nat) :
    methods.foldl (fun total method => total + method.code.length) total =
      total + methods.foldl (fun total method => total + method.code.length) 0 := by
  induction methods generalizing total with
  | nil => rfl
  | cons method methods ih =>
    rw [List.foldl_cons, List.foldl_cons, ih (total + method.code.length),
      ih (0 + method.code.length)]
    omega

theorem weight_of_split {front back : List Method} {method : Method}
    (split : cls.methods = front ++ method :: back) :
    cls.weight = front.foldl (fun total method => total + method.code.length) 0 +
      method.code.length + back.foldl (fun total method => total + method.code.length) 0 := by
  rw [weight, split, List.foldl_append, List.foldl_cons, foldl_add_length back]

theorem exists_split (valid : position < cls.methods.length) :
    ∃ front method back, cls.methods = front ++ method :: back ∧ front.length = position := by
  refine ⟨cls.methods.take position, cls.methods[position], cls.methods.drop (position + 1), ?_, ?_⟩
  · simp
  · simp [Nat.le_of_lt valid]

/-- An edit that takes out instructions makes the class lighter by as many. -/
theorem weight_editCode_add_eq {drop : Nat}
    (shorter : (edit (cls.codeAt position)).length + drop = (cls.codeAt position).length) :
    (cls.editCode position edit).weight + drop = cls.weight := by
  by_cases valid : position < cls.methods.length
  · obtain ⟨front, method, back, split, rfl⟩ := exists_split valid
    rw [codeAt_of_split split] at shorter
    rw [weight_of_split split, weight_of_split (methods_editCode_of_split edit split)]
    simp only
    omega
  · rw [codeAt_of_not_lt valid] at shorter
    rw [editCode_of_not_lt valid]
    have none : (Listing.empty : Listing Instruction).length = 0 := rfl
    omega

theorem weight_editCode_add_le {drop : Nat}
    (shorter : (edit (cls.codeAt position)).length + drop ≤ (cls.codeAt position).length) :
    (cls.editCode position edit).weight + drop ≤ cls.weight := by
  obtain ⟨more, all⟩ := Nat.exists_eq_add_of_le shorter
  have lighter : (cls.editCode position edit).weight + (drop + more) = cls.weight :=
    weight_editCode_add_eq (by omega)
  omega

end Class

end LiteralRecovery
