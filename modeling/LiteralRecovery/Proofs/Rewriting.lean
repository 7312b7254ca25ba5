import LiteralRecovery.Proofs.PassRun

/-! What can be done to a class between reading and writing it: nodes are taken
out or replaced by constants, fields and methods are deleted, and local
variable tables are dropped. Recovery is a chain of such edits. -/
namespace LiteralRecovery

namespace Listing

variable {list later : Listing Instruction}

/-- One edit of a listing. -/
inductive Edit (list : Listing Instruction) : Listing Instruction → Prop where
  | remove (id : NodeId) : Edit list (list.remove id)
  | replace (id : NodeId) {value : Instruction} (constant : StaticTable.isConstant value = true) :
      Edit list (list.replace id value)

/-- What a listing holds after an edit, it held before or is a constant. -/
theorem Edit.held {id : NodeId} {instruction : Instruction} (edit : list.Edit later)
    (held : later.get? id = some instruction) :
    StaticTable.isConstant instruction = true ∨ list.get? id = some instruction := by
  cases edit with
  | remove other =>
    rw [get?_remove] at held
    split at held
    · cases held
    · exact .inr held
  | @replace other value constant =>
    by_cases live : list.isLive other = true
    · rw [get?_replace live] at held
      split at held
      · cases held
        exact .inl constant
      · exact .inr held
    · rw [Listing.replace, if_neg live] at held
      exact .inr held

theorem held_of_edits {id : NodeId} {instruction : Instruction}
    (edits : Relation.ReflTransGen Edit list later) (held : later.get? id = some instruction) :
    StaticTable.isConstant instruction = true ∨ list.get? id = some instruction := by
  induction edits with
  | refl => exact .inr held
  | tail _ edit ih =>
    rcases edit.held held with constant | kept
    · exact .inl constant
    · exact ih kept

theorem edits_removeAll (list : Listing Instruction) (nodes : List NodeId) :
    Relation.ReflTransGen Edit list (list.removeAll nodes) := by
  induction nodes generalizing list with
  | nil => exact .refl
  | cons node nodes ih => exact .head (.remove node) (ih (list.remove node))

/-- The edit by which every pass puts a constant in place of an expression. -/
theorem edits_collapse (nodes : List NodeId) (id : NodeId) {value : Instruction}
    (constant : StaticTable.isConstant value = true) :
    Relation.ReflTransGen Edit list ((list.removeAll nodes).replace id value) :=
  (edits_removeAll list nodes).tail (.replace id constant)

end Listing

namespace Class

variable {cls later : Class}

/-- One edit of a class. -/
inductive Edit (cls : Class) : Class → Prop where
  | code (method : Nat) {edited : Listing Instruction} (edit : (cls.codeAt method).Edit edited) :
      Edit cls (cls.editCode method fun _ => edited)
  | fields {kept : List Field} (fewer : kept.Sublist cls.fields) :
      Edit cls { cls with fields := kept }
  | methods {kept : List Method} (fewer : kept.Sublist cls.methods) :
      Edit cls { cls with methods := kept }
  | locals : Edit cls (Cleanup.clearLocals cls)

/-- The later class is what any number of edits made of the earlier one. -/
abbrev Edits : Class → Class → Prop := Relation.ReflTransGen Edit

theorem editCode_eq_const (cls : Class) (method : Nat)
    (edit : Listing Instruction → Listing Instruction) :
    cls.editCode method edit = cls.editCode method fun _ => edit (cls.codeAt method) := by
  by_cases valid : method < cls.methods.length
  · obtain ⟨front, held, back, split, rfl⟩ := exists_split valid
    have same : (cls.editCode front.length edit).methods =
        (cls.editCode front.length fun _ => edit (cls.codeAt front.length)).methods := by
      rw [methods_editCode_of_split _ split, methods_editCode_of_split _ split,
        codeAt_of_split split]
    simp only [editCode] at same ⊢
    rw [same]
  · rw [editCode_of_not_lt valid, editCode_of_not_lt valid]

/-- Edits of one listing are edits of the class. -/
theorem edits_editCode {method : Nat} {edit : Listing Instruction → Listing Instruction}
    (edits : Relation.ReflTransGen Listing.Edit (cls.codeAt method) (edit (cls.codeAt method))) :
    Edits cls (cls.editCode method edit) := by
  rw [editCode_eq_const]
  generalize edit (cls.codeAt method) = edited at edits
  by_cases valid : method < cls.methods.length
  · induction edits with
    | refl => rw [editCode_codeAt]
    | @tail between edited _ step ih =>
      have here : (cls.editCode method fun _ => between).codeAt method = between :=
        codeAt_editCode_self valid
      have whole := Edit.code method (here ▸ step)
      simp only [editCode, List.modify_modify_eq, Function.comp_def] at whole ih ⊢
      exact ih.tail whole
  · rw [editCode_of_not_lt valid]

/-- A walk over one listing edits the class if each of its changes edits the
listing. -/
theorem edits_sweep {step : Listing Instruction → NodeId → Step (Listing Instruction) RecoveryError}
    (changes : ∀ before after, Changes step before after →
      Relation.ReflTransGen Listing.Edit before after)
    (cls : Class) (method : Nat) (places : List NodeId) :
    Edits cls (cls.editCode method fun _ => (sweep step places (cls.codeAt method) 0).state) := by
  apply edits_editCode
  exact sweep_keeps (Relation.ReflTransGen Listing.Edit (cls.codeAt method))
    (fun before after reached changed => reached.trans (changes before after changed)) .refl

end Class

namespace StaticTable

variable {kind : ElementKind} {state after : RecoveryState} {site : ReadSite} {value : Instruction}

/-- The values remembered for slots are constants. -/
def RemembersConstants (state : RecoveryState) : Prop :=
  ∀ entry ∈ state.memo, isConstant entry.2 = true

theorem StoreSegment.isConstant_value {className : String} {field : MemberRef} {store : StoreSite}
    {segment : List (NodeId × Instruction)}
    (shape : StoreSegment className field kind store segment) :
    isConstant store.value = true := by
  cases shape <;> rfl

theorem isConstant_storedValue {cls : Class} {store : StoreSite} {helper : Option MemberKey}
    (constant : isConstant store.value = true)
    (stored : storedValue cls store = .ok (value, helper)) : isConstant value = true := by
  unfold storedValue at stored
  split at stored
  · split at stored
    · cases stored
      rfl
    · cases stored
  · cases stored
    exact constant

theorem resolve_constant (remembers : RemembersConstants state)
    (found : resolve kind state site = .ok (value, after)) :
    isConstant value = true ∧ RemembersConstants after := by
  rcases resolve_cases found with ⟨known, rfl⟩ | ⟨_, _, rfl, rfl⟩ | ⟨_, store, helper, hit, _, stored, rfl⟩
  · obtain ⟨_, _, split, _⟩ := List.lookup_eq_some_iff.mp known
    have member : ((site.field.key, site.index), value) ∈ state.memo := by simp [split]
    exact ⟨remembers _ member, remembers⟩
  · exact ⟨by cases kind <;> rfl, remembers⟩
  · obtain ⟨id, found, _, _⟩ := storeAt?_eq_some.mp hit
    obtain ⟨segment, _, shape, _⟩ := store?_eq_some.mp found
    have constant := isConstant_storedValue shape.isConstant_value stored
    refine ⟨constant, fun entry member => ?_⟩
    rcases List.mem_cons.mp member with rfl | old
    · exact constant
    · exact remembers entry old

theorem resolve_edits (found : resolve kind state site = .ok (value, after)) :
    state.cls.Edits after.cls := by
  rcases resolve_cls found with same | ⟨store, segment, _, _, edited⟩
  · rw [same]
  · rw [edited]
    exact Class.edits_editCode (Listing.edits_removeAll _ _)

theorem changes_edits (remembers : RemembersConstants state)
    (changed : Changes (step kind) state after) :
    state.cls.Edits after.cls ∧ RemembersConstants after := by
  obtain ⟨place, changed⟩ := changed
  obtain ⟨site, value, resolved, event, _, found, _, rfl⟩ := step_cases changed
  obtain ⟨constant, remembers⟩ := resolve_constant remembers found
  have put : resolved.cls.Edits (resolved.cls.editCode place.method fun code =>
      (code.removeAll site.tail).replace place.node value) :=
    Class.edits_editCode (Listing.edits_collapse site.tail place.node constant)
  exact ⟨(resolve_edits found).trans put, remembers⟩

end StaticTable

namespace Fold

variable {width : Width} {mode : LongFold} {code after : Listing Instruction}

theorem changes_edits (changed : Changes (step width mode) code after) :
    Relation.ReflTransGen Listing.Edit code after := by
  obtain ⟨id, changed⟩ := changed
  obtain ⟨first, second, secondId, opId, op, value, _, valued, rfl⟩ := step_eq_change.mp changed
  apply Listing.edits_collapse
  cases width <;> cases first <;> cases second <;> cases valued <;> rfl

theorem scan_edits (width : Width) (options : Options) (state : RecoveryState) :
    state.cls.Edits (scan width options state).state.cls :=
  Class.edits_sweep (fun _ _ => changes_edits) state.cls state.initializer _

end Fold

namespace Cleanup

variable {isTarget : MemberRef → Bool} {code after : Listing Instruction}

theorem changes_edits (changed : Changes (step isTarget) code after) :
    Relation.ReflTransGen Listing.Edit code after := by
  obtain ⟨id, changed⟩ := changed
  obtain ⟨_, _, _, _, _, _, _, rfl⟩ := step_eq_change.mp changed
  exact Listing.edits_removeAll _ _

theorem scan_edits (state : RecoveryState) : state.cls.Edits (scan state).state.cls :=
  Class.edits_sweep (fun _ _ => changes_edits) state.cls state.initializer _

theorem removeField_edits (state : RecoveryState) (key : MemberKey) :
    state.cls.Edits (removeField state key).cls := by
  unfold removeField
  simp only
  split
  · exact .refl
  · exact (Class.edits_editCode (Listing.edits_removeAll _ _)).tail (.fields List.filter_sublist)

theorem removeHelper_edits (state : RecoveryState) (key : MemberKey) :
    state.cls.Edits (removeHelper state key).cls := by
  unfold removeHelper
  simp only
  split
  · exact .refl
  · split
    · exact .refl
    · exact .single (.methods List.filter_sublist)

theorem foldl_edits {remove : RecoveryState → MemberKey → RecoveryState}
    (edits : ∀ state : RecoveryState, ∀ key, state.cls.Edits (remove state key).cls)
    (keys : List MemberKey) (state : RecoveryState) : state.cls.Edits (keys.foldl remove state).cls := by
  induction keys generalizing state with
  | nil => exact .refl
  | cons key keys ih => exact (edits state key).trans (ih (remove state key))

theorem removeMarked_edits (state : RecoveryState) :
    state.cls.Edits (removeMarked state).cls :=
  (foldl_edits removeField_edits _ _).trans (foldl_edits removeHelper_edits _ _)

end Cleanup

namespace Pass

variable {options : Options} {state : RecoveryState}

/-- A state that edits of the class lead to, with constants remembered. -/
def Edited (cls : Class) (state : RecoveryState) : Prop :=
  cls.Edits state.cls ∧ StaticTable.RemembersConstants state

theorem scan_edited {cls : Class} (pass : Pass) (edited : Edited cls state) :
    Edited cls (pass.scan options state).state := by
  obtain ⟨edits, remembers⟩ := edited
  cases pass with
  | fold width => exact ⟨edits.trans (Fold.scan_edits width options state), remembers⟩
  | table kind =>
    refine sweep_keeps (Edited cls) (fun before after reached changed => ?_) ⟨edits, remembers⟩
    obtain ⟨more, kept⟩ := StaticTable.changes_edits reached.2 changed
    exact ⟨reached.1.trans more, kept⟩
  | allocations => exact ⟨edits.trans (Cleanup.scan_edits state), remembers⟩

theorem runAll_edited {cls : Class} (options : Options) (passes : List Pass)
    (edited : Edited cls state) :
    Edited cls (runAll options passes state).1 :=
  runAll_keeps options passes (Edited cls) (fun pass _ _ edited =>
    pass.run_keeps options (Edited cls) (fun _ _ edited => edited)
      (fun _ edited => pass.scan_edited edited) edited) edited

theorem allocations_edits (options : Options) (state : RecoveryState) :
    state.cls.Edits (Pass.allocations.run options state).1.cls :=
  Pass.allocations.run_keeps options (fun later => state.cls.Edits later.cls)
    (fun _ _ edits => edits) (fun later edits => edits.trans (Cleanup.scan_edits later)) .refl

end Pass

/-- Dropping local variable tables leaves the rest of a body alone. -/
theorem Cleanup.body?_clearAttribute (info : MemberInfo) :
    MemberInfo.body? { info with attributes := info.attributes.map clearAttribute } =
      info.body?.map fun body =>
        { body with attributes := body.attributes.filter (!isLocalTable ·) } := by
  have bodies : Attribute.body? ∘ clearAttribute = Option.map (fun body =>
      { body with attributes := body.attributes.filter (!isLocalTable ·) }) ∘ Attribute.body? := by
    funext held
    cases held <;> rfl
  simp only [MemberInfo.body?, List.findSome?_map, bodies]
  exact List.map_findSome?.symm

/-- Recovery is a chain of edits. -/
theorem recover_edits {options : Options} {cls : Class} {stats : Stats}
    (fine : (recover options cls).result = .ok stats) : cls.Edits (recover options cls).cls := by
  cases first : cls.initializer? with
  | none => rw [recover, first]
  | some initializer =>
    obtain ⟨resolved, cleaned, ran, swept, final, _⟩ := recover_stages first fine
    have start : Pass.Edited cls (RecoveryState.start cls initializer) :=
      ⟨.refl, fun _ member => absurd member List.not_mem_nil⟩
    have passes := Pass.runAll_edited options recoveryPasses start
    have cleanup := Pass.allocations_edits options (Cleanup.removeMarked resolved)
    rw [ran] at passes
    rw [swept] at cleanup
    rw [final]
    exact ((passes.1.trans (Cleanup.removeMarked_edits resolved)).trans cleanup).tail .locals

end LiteralRecovery
