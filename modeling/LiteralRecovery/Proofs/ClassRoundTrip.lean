import LiteralRecovery.Class.Lift
import LiteralRecovery.Class.Lower
import LiteralRecovery.Proofs.ListingCode
import LiteralRecovery.Proofs.Rewriting
import LiteralRecovery.Proofs.SwitchCases

/-! Writing a class and reading it again. However a class was edited since it was
read, every node of its listings is either a constant or still what some code
of the file stands for. So the file that is written reads as the class, with
the live instructions in a row and their targets moved along. -/
namespace LiteralRecovery

/-! ### Where the nodes come from -/

namespace Listing

variable {pool : ConstantPool} {code : List Bytecode} {list later : Listing Instruction}

theorem get?_ofList {α : Type} (contents : List α) (id : NodeId) :
    (ofList contents).get? id = contents[id]? := by
  simp only [get?, ofList, List.getElem?_toArray, List.getElem?_map]
  cases contents[id]? <;> rfl

/-- A listing that was lifted from the code and edited since: a node is a
constant, or what the instruction with its number stands for. -/
structure Stems (pool : ConstantPool) (code : List Bytecode) (list : Listing Instruction) :
    Prop where
  size : list.size = code.length
  unclosed : list.Open
  origin : ∀ id instruction, list.get? id = some instruction →
    StaticTable.isConstant instruction = true ∨
      ∃ held, code[id]? = some held ∧ held.Lifts pool instruction

theorem stems_ofList {instructions : List Instruction}
    (lifts : List.Forall₂ (Bytecode.Lifts pool) code instructions) :
    Stems pool code (ofList instructions) where
  size := by simp [size, ofList, lifts.length_eq]
  unclosed := by
    intro id
    simp only [ofList, List.getElem?_toArray, List.getElem?_map]
    cases instructions[id]? <;> simp
  origin := by
    intro id instruction found
    rw [get?_ofList] at found
    obtain ⟨inside, same⟩ := List.getElem?_eq_some_iff.mp found
    have bound : id < code.length := lifts.length_eq ▸ inside
    refine .inr ⟨code[id], List.getElem?_eq_getElem bound, ?_⟩
    rw [← same]
    exact lifts.get bound inside

theorem Stems.edit (stems : Stems pool code list) (edit : list.Edit later) :
    Stems pool code later := by
  have thins : list.Thins later := by
    cases edit with
    | remove id => exact thins_remove list id
    | replace id constant => exact thins_replace list id _
  refine ⟨thins.size.trans stems.size, fun id shut => ?_, fun id instruction found => ?_⟩
  · exact stems.unclosed id ((thins.closed id).mp shut)
  · rcases edit.held found with constant | kept
    · exact .inl constant
    · exact stems.origin id instruction kept

theorem Stems.carries (stems : Stems pool code list) :
    ∀ instruction ∈ list.toList, instruction.Carries pool := by
  intro instruction member
  obtain ⟨id, found⟩ := mem_toList.mp member
  rcases stems.origin id instruction found with constant | ⟨held, _, lifts⟩
  · exact Instruction.carries_of_constant constant
  · exact Instruction.carries_of_lifts lifts

theorem toList_of_size_zero {α : Type} {list : Listing α} (none : list.size = 0) :
    list.toList = [] := by
  have slots : list.slots = #[] := Array.eq_empty_of_size_eq_zero none
  simp [toList, items, slots]

end Listing

/-! ### Reading -/

section Reading

variable {pool later : ConstantPool} {info : MemberInfo} {before after : Constants}

theorem mapError_eq_ok {ε ε' α : Type} {outcome : Except ε α} {wrap : ε → ε'} {value : α} :
    outcome.mapError wrap = .ok value ↔ outcome = .ok value := by
  cases outcome <;> simp [Except.mapError]

theorem Field.ofInfo_eq_ok {field : Field} :
    Field.ofInfo pool info = .ok field ↔
      field.info = info ∧ pool.get? info.name = some (.utf8 field.name) ∧
        pool.get? info.descriptor = some (.utf8 field.descriptor) := by
  simp only [ofInfo, bind_eq_ok, mapError_eq_ok, ConstantPool.utf8_eq_ok]
  constructor
  · rintro ⟨name, named, descriptor, described, same⟩
    cases same
    exact ⟨rfl, named, described⟩
  · rintro ⟨rfl, named, described⟩
    exact ⟨_, named, _, described, rfl⟩

theorem MemberInfo.code_of_body {body : CodeBody Attribute} (found : info.body? = some body) :
    info.code = body.code := by
  rw [MemberInfo.code, found]
  rfl

theorem MemberInfo.code_of_none (absent : info.body? = none) : info.code = [] := by
  rw [MemberInfo.code, absent]
  rfl

/-- The method is what the declaration is read as. -/
structure Method.Reads (pool : ConstantPool) (info : MemberInfo) (method : Method) : Prop where
  source : method.info = info
  named : pool.get? info.name = some (.utf8 method.name)
  described : pool.get? info.descriptor = some (.utf8 method.descriptor)
  listing : ∃ instructions, method.code = .ofList instructions ∧
    List.Forall₂ (Bytecode.Lifts pool) info.code instructions

theorem Method.reads_ofInfo {method : Method}
    (yields : Yields (Method.ofInfo info) before method after) :
    method.Reads before.pool info ∧ after.pool = before.pool ∧
      (before.Faithful → after.Faithful) := by
  obtain ⟨name, _, readName, reading⟩ := yields_bind.mp yields
  obtain ⟨named, rfl⟩ := Constants.yields_read.mp (yields_adapt.mp readName)
  obtain ⟨descriptor, _, readDescriptor, listing⟩ := yields_bind.mp reading
  obtain ⟨described, rfl⟩ := Constants.yields_read.mp (yields_adapt.mp readDescriptor)
  rw [ConstantPool.utf8_eq_ok] at named described
  split at listing
  · rename_i body found
    obtain ⟨list, _, lifted, rest⟩ := yields_bind.mp listing
    obtain ⟨rfl, rfl⟩ := yields_pure.mp rest
    obtain ⟨⟨instructions, rfl, lifts⟩, kept, faithful⟩ := lifts_of_liftCode (yields_adapt.mp lifted)
    rw [← MemberInfo.code_of_body found] at lifts
    exact ⟨⟨rfl, named, described, instructions, rfl, lifts⟩, kept, faithful⟩
  · rename_i absent
    obtain ⟨list, _, lifted, rest⟩ := yields_bind.mp listing
    obtain ⟨rfl, rfl⟩ := yields_pure.mp lifted
    obtain ⟨rfl, rfl⟩ := yields_pure.mp rest
    refine ⟨⟨rfl, named, described, [], rfl, ?_⟩, rfl, id⟩
    rw [MemberInfo.code_of_none absent]
    exact .nil

/-- A declaration whose code stands for a listing is read as the method with that
listing. -/
theorem Method.yields_ofInfo {name descriptor : String} {instructions : List Instruction}
    (named : before.pool.get? info.name = some (.utf8 name))
    (described : before.pool.get? info.descriptor = some (.utf8 descriptor))
    (lifts : List.Forall₂ (Bytecode.Lifts before.pool) info.code instructions) :
    ∃ after, Yields (Method.ofInfo info) before ⟨name, descriptor, .ofList instructions, info⟩
      after ∧ after.pool = before.pool := by
  rw [← ConstantPool.utf8_eq_ok] at named described
  have names {next : String → String → ConstantsM ClassError Method} {method : Method}
      {after : Constants} (listing : Yields (next name descriptor) before method after) :
      Yields (do
        let name ← (Constants.read (·.utf8 info.name)).adapt .methodName
        let descriptor ← (Constants.read (·.utf8 info.descriptor)).adapt .methodDescriptor
        next name descriptor) before method after :=
    yields_bind.mpr ⟨_, _, yields_adapt.mpr (Constants.yields_read.mpr ⟨named, rfl⟩),
      yields_bind.mpr ⟨_, _, yields_adapt.mpr (Constants.yields_read.mpr ⟨described, rfl⟩), listing⟩⟩
  unfold Method.ofInfo
  cases found : info.body? with
  | none =>
    rw [MemberInfo.code_of_none found] at lifts
    cases lifts
    exact ⟨before, names (yields_pure.mpr ⟨rfl, rfl⟩), rfl⟩
  | some body =>
    rw [MemberInfo.code_of_body found] at lifts
    obtain ⟨after, lifted, kept⟩ := yields_liftCode lifts
    refine ⟨after, names ?_, kept⟩
    exact yields_bind.mpr ⟨_, _, yields_adapt.mpr lifted, yields_pure.mpr ⟨rfl, rfl⟩⟩

end Reading

namespace Class

variable {file : ClassFile} {cls later : Class}

theorem reads_methods {infos : List MemberInfo} {methods : List Method} {before after : Constants}
    (yields : Yields (infos.mapM Method.ofInfo) before methods after) :
    List.Forall₂ (Method.Reads before.pool) infos methods ∧ after.pool = before.pool ∧
      (before.Faithful → after.Faithful) := by
  induction infos generalizing before methods with
  | nil =>
    obtain ⟨rfl, rfl⟩ := yields_mapM_nil.mp yields
    exact ⟨.nil, rfl, id⟩
  | cons info infos ih =>
    obtain ⟨method, between, rest, first, behind, rfl⟩ := yields_mapM_cons.mp yields
    obtain ⟨reads, pool, kept⟩ := Method.reads_ofInfo first
    obtain ⟨others, pool', kept'⟩ := ih behind
    rw [pool] at others pool'
    exact ⟨.cons reads others, pool', fun faithful => kept' (kept faithful)⟩

theorem reads_fields {pool : ConstantPool} {infos : List MemberInfo} {fields : List Field}
    (read : infos.mapM (Field.ofInfo pool) = .ok fields) :
    fields.map (·.info) = infos ∧
      ∀ field ∈ fields, Field.ofInfo pool field.info = .ok field := by
  induction infos generalizing fields with
  | nil =>
    cases read
    simp
  | cons info infos ih =>
    simp only [List.mapM_cons, bind_eq_ok] at read
    obtain ⟨field, here, others, behind, same⟩ := read
    cases same
    obtain ⟨source, _⟩ := Field.ofInfo_eq_ok.mp here
    obtain ⟨sources, reads⟩ := ih behind
    exact ⟨by rw [List.map_cons, source, sources],
      List.forall_mem_cons.mpr ⟨source ▸ here, reads⟩⟩

theorem ofFile_eq_ok :
    ofFile file = .ok cls ↔ cls.file = file ∧ file.pool.Names file.thisClass cls.name ∧
      file.fields.mapM (Field.ofInfo file.pool) = .ok cls.fields ∧
      ∃ constants, cls.index = constants.index ∧
        Yields (file.methods.mapM Method.ofInfo) (.ofPool file.pool) cls.methods constants := by
  constructor
  · intro read
    obtain ⟨name, named, declaring⟩ := bind_eq_ok.mp read
    obtain ⟨fields, declared, lifting⟩ := bind_eq_ok.mp declaring
    obtain ⟨methods, lifted, same⟩ := bind_eq_ok.mp lifting
    cases same
    rw [mapError_eq_ok, ConstantPool.className_eq_ok] at named
    exact ⟨rfl, named, declared, _, rfl, Prod.ext lifted rfl⟩
  · rintro ⟨rfl, named, declared, constants, index, lifted⟩
    rw [← ConstantPool.className_eq_ok] at named
    refine bind_eq_ok.mpr ⟨_, mapError_eq_ok.mpr named, bind_eq_ok.mpr ⟨_, declared, ?_⟩⟩
    have run : (cls.file.methods.mapM Method.ofInfo).run.run (.ofPool cls.file.pool) =
      (.ok cls.methods, constants) := lifted
    rw [run]
    exact bind_eq_ok.mpr ⟨_, rfl, by rw [← index]; rfl⟩

end Class

/-! ### Editing -/

/-- A method that was read from its declaration and whose listing was edited
since. -/
structure Method.Stems (pool : ConstantPool) (method : Method) : Prop where
  named : pool.get? method.info.name = some (.utf8 method.name)
  described : pool.get? method.info.descriptor = some (.utf8 method.descriptor)
  distinct : ∀ code ∈ method.info.code, code.DistinctCases
  listing : method.code.Stems pool method.info.code

theorem Method.Reads.stems {pool : ConstantPool} {info : MemberInfo} {method : Method}
    (reads : method.Reads pool info) (distinct : ∀ code ∈ info.code, code.DistinctCases) :
    method.Stems pool := by
  obtain ⟨rfl, named, described, instructions, code, lifts⟩ := reads
  exact ⟨named, described, distinct, code ▸ Listing.stems_ofList lifts⟩

namespace Class

variable {file : ClassFile} {cls later : Class}

/-- A class that was read from the file and edited since. -/
structure Stems (file : ClassFile) (cls : Class) : Prop where
  source : cls.file = file
  named : file.pool.Names file.thisClass cls.name
  faithful : Constants.Faithful ⟨file.pool, cls.index⟩
  fields : ∀ field ∈ cls.fields, Field.ofInfo file.pool field.info = .ok field
  methods : ∀ method ∈ cls.methods, method.Stems file.pool

private theorem stems_of_reads {pool : ConstantPool} {infos : List MemberInfo}
    {methods : List Method} (reads : List.Forall₂ (Method.Reads pool) infos methods)
    (distinct : ∀ info ∈ infos, ∀ code ∈ info.code, code.DistinctCases) :
    ∀ method ∈ methods, method.Stems pool := by
  induction reads with
  | nil => simp
  | cons here _ ih =>
    obtain ⟨first, others⟩ := List.forall_mem_cons.mp distinct
    exact List.forall_mem_cons.mpr ⟨here.stems first, ih others⟩

theorem stems_ofFile (distinct : file.DistinctCases) (read : ofFile file = .ok cls) :
    cls.Stems file := by
  obtain ⟨source, named, declared, constants, index, lifted⟩ := ofFile_eq_ok.mp read
  obtain ⟨reads, pool, faithful⟩ := reads_methods lifted
  refine ⟨source, named, ?_, (reads_fields declared).2, stems_of_reads reads distinct⟩
  exact (faithful (Constants.faithful_ofPool file.pool)).grow (pool ▸ .refl _) index

/-- Dropping local variable tables leaves the code alone. -/
theorem code_clearAttribute (info : MemberInfo) :
    MemberInfo.code { info with attributes := info.attributes.map Cleanup.clearAttribute } =
      info.code := by
  rw [MemberInfo.code, Cleanup.body?_clearAttribute, Option.map_map]
  rfl

theorem Stems.edit (stems : cls.Stems file) (edit : cls.Edit later) : later.Stems file := by
  cases edit with
  | @code method edited edit =>
    by_cases valid : method < cls.methods.length
    · obtain ⟨front, held, back, split, rfl⟩ := exists_split valid
      rw [codeAt_of_split split] at edit
      have old := stems.methods
      rw [split, List.forall_mem_append, List.forall_mem_cons] at old
      refine { stems with methods := ?_ }
      rw [methods_editCode_of_split _ split, List.forall_mem_append, List.forall_mem_cons]
      exact ⟨old.1, { old.2.1 with listing := old.2.1.listing.edit edit }, old.2.2⟩
    · rw [editCode_of_not_lt valid]
      exact stems
  | fields fewer =>
    exact { stems with fields := fun field member => stems.fields field (fewer.subset member) }
  | methods fewer =>
    exact { stems with methods := fun method member => stems.methods method (fewer.subset member) }
  | locals =>
    refine { stems with methods := List.forall_mem_map.mpr fun method member => ?_ }
    obtain ⟨named, described, distinct, listing⟩ := stems.methods method member
    have code := code_clearAttribute method.info
    exact ⟨named, described, code ▸ distinct, code ▸ listing⟩

theorem Stems.edits (stems : cls.Stems file) (edits : cls.Edits later) : later.Stems file := by
  induction edits with
  | refl => exact stems
  | tail _ edit ih => exact ih.edit edit

end Class

/-! ### Writing -/

section Writing

variable {pool : ConstantPool} {list : Listing Instruction} {writing after : Writing}

theorem Writing.yields_onConstants {ε α : Type} {action : ConstantsM ε α} {result : α} :
    Yields (onConstants action) writing result after ↔
      ∃ constants, Yields action writing.constants result constants ∧
        after = { writing with constants } := by
  constructor
  · intro same
    have result := congrArg Prod.fst same
    have state := congrArg Prod.snd same
    exact ⟨(action writing.constants).2, Prod.ext result rfl, state.symm⟩
  · rintro ⟨constants, yields, rfl⟩
    rw [Yields] at yields
    rw [Yields, onConstants, yields]

theorem Bytecode.Lifts.jump_of_lookupswitch {fallback : Int32} {cases : List (Int32 × Int32)}
    {instruction : Instruction} (lifts : Lifts pool (.lookupswitch fallback cases) instruction) :
    ∃ targets, instruction = .jump (.lookupswitch fallback cases) targets := by
  obtain ⟨after, yields, _⟩ :=
    @Lifts.yields _ _ (Constants.ofPool pool) lifts
  obtain ⟨lifted, _⟩ := yields_liftM.mp yields
  obtain ⟨targets?, found, rest⟩ := bind_eq_ok.mp lifted
  obtain ⟨targets, _, same⟩ := bind_eq_ok.mp found
  cases same
  cases rest
  exact ⟨targets, rfl⟩

theorem Bytecode.eq_of_same {left right : Bytecode} (same : left.same right = true) :
    left = right ∨ ∃ fallback cases, left = .lookupswitch fallback cases := by
  cases left with
  | lookupswitch fallback cases => exact .inr ⟨fallback, cases, rfl⟩
  | _ => exact .inl (by simpa [Bytecode.same] using same)

/-- Code that compares the same as the code its listing was lifted from is that
code. -/
theorem code_of_sameCode {code lowered : List Bytecode} {later : ConstantPool}
    (stems : list.Stems pool code) (distinct : ∀ held ∈ code, held.DistinctCases)
    (lifts : List.Forall₂ (Bytecode.Lifts later) lowered
      (list.toList.map (·.relocated list.landing)))
    (same : Bytecode.sameCode lowered code = true) : lowered = code := by
  simp only [Bytecode.sameCode, Bool.and_eq_true, decide_eq_true_eq, List.all_eq_true] at same
  obtain ⟨long, same⟩ := same
  have full : list.length = list.size := by
    have count := lifts.length_eq
    simp only [List.length_map, Listing.toList] at count
    rw [stems.size, ← long, count, Listing.length]
  apply List.ext_getElem long
  intro index inside inside'
  have here : lowered[index].same code[index] = true := same (lowered[index], code[index]) (by
    rw [List.mem_iff_getElem]
    exact ⟨index, by simpa [long] using inside', by simp⟩)
  rcases Bytecode.eq_of_same here with equal | ⟨fallback, cases, switch⟩
  · exact equal
  · -- a switch at this place is the one that was there before, its targets moved
    have placed : index < list.toList.length := by
      simpa [lifts.length_eq] using inside
    have meaning := lifts.get inside (by simpa using placed)
    rw [List.get_eq_getElem, List.get_eq_getElem, List.getElem_map, switch] at meaning
    obtain ⟨targets, jump⟩ := meaning.jump_of_lookupswitch
    have found : list.get? index = some list.toList[index] := by
      rw [← Listing.getElem?_toList_of_full full, List.getElem?_eq_getElem placed]
    cases instruction : list.toList[index] with
    | jump carried targets =>
      rw [instruction] at jump found
      rcases stems.origin index _ found with constant | ⟨held, there, stood⟩
      · cases constant
      · obtain ⟨rfl, _⟩ := stood.keeps
        rw [List.getElem?_eq_getElem inside', Option.some.injEq] at there
        subst there
        have moved : code[index].mapTargets list.landing = lowered[index] := by
          rw [switch]
          exact (Instruction.jump.inj jump).1
        rw [← moved] at here ⊢
        exact Bytecode.mapTargets_eq_of_same (distinct _ (List.getElem_mem inside')) here
    | _ =>
      rw [instruction] at jump
      cases jump

/-- A body with the code of a listing has code that stands for the listing. -/
theorem CodeBody.lifts_withListing {body changed : CodeBody Attribute}
    (stems : list.Stems pool body.code) (distinct : ∀ code ∈ body.code, code.DistinctCases)
    (faithful : writing.constants.Faithful) (grows : pool.Grows writing.constants.pool)
    (yields : Yields (body.withListing list) writing changed after) :
    after.constants.Faithful ∧ writing.constants.pool.Grows after.constants.pool ∧
      List.Forall₂ (Bytecode.Lifts after.constants.pool) changed.code
        (list.toList.map (·.relocated list.landing)) := by
  obtain ⟨lowered, _, step, rest⟩ := yields_bind.mp yields
  obtain ⟨constants, lowering, rfl⟩ := Writing.yields_onConstants.mp step
  have carries : ∀ instruction ∈ list.toList, instruction.Carries writing.constants.pool :=
    fun instruction member => (stems.carries instruction member).mono grows
  obtain ⟨kept, grown, lifts⟩ :=
    lifts_of_lowerCode stems.unclosed faithful carries (yields_adapt.mp lowering)
  have relocated {before : Writing}
      (yields : Yields (liftM (body.relocate lowered) : WritingM BodyError _) before changed after) :
      changed.code = lowered.code ∧ after = before := by
    obtain ⟨moved, same⟩ := yields_liftM.mp yields
    obtain ⟨attributes, _, same'⟩ := bind_eq_ok.mp moved
    cases same'
    exact ⟨rfl, same⟩
  split at rest
  · rename_i same
    obtain ⟨rfl, rfl⟩ := yields_pure.mp rest
    rw [← code_of_sameCode stems distinct lifts same]
    exact ⟨kept, grown, lifts⟩
  · simp only at rest
    split at rest
    · obtain ⟨_, _, logged, moved⟩ := yields_bind.mp rest
      obtain ⟨code, rfl⟩ := relocated moved
      rw [code, yields_modify.mp logged]
      exact ⟨kept, grown, lifts⟩
    · obtain ⟨code, rfl⟩ := relocated rest
      rw [code]
      exact ⟨kept, grown, lifts⟩

/-- The first body among attributes that were given the code of a listing. -/
theorem Method.body_withListing {attributes changed : List Attribute}
    (yields : Yields (withListing list attributes) writing changed after) :
    (attributes.findSome? Attribute.body? = none ∧ changed.findSome? Attribute.body? = none ∧
      after = writing) ∨
    ∃ body body', attributes.findSome? Attribute.body? = some body ∧
      changed.findSome? Attribute.body? = some body' ∧
      Yields (body.withListing list) writing body' after := by
  induction attributes generalizing changed with
  | nil =>
    obtain ⟨rfl, rfl⟩ := yields_pure.mp yields
    exact .inl ⟨rfl, rfl, rfl⟩
  | cons first rest ih =>
    cases first
    case code name body =>
      obtain ⟨body', _, here, same⟩ := yields_bind.mp yields
      obtain ⟨rfl, rfl⟩ := yields_pure.mp same
      exact .inr ⟨body, body', rfl, rfl, here⟩
    all_goals
      obtain ⟨others, _, behind, same⟩ := yields_bind.mp yields
      obtain ⟨rfl, rfl⟩ := yields_pure.mp same
      have found := ih behind
      exact found

/-- The declaration names the method, and its code stands for the live
instructions of the method. -/
structure Method.Written (pool : ConstantPool) (method : Method) (info : MemberInfo) : Prop where
  named : pool.get? info.name = some (.utf8 method.name)
  described : pool.get? info.descriptor = some (.utf8 method.descriptor)
  lifts : List.Forall₂ (Bytecode.Lifts pool) info.code
    (method.code.toList.map (·.relocated method.code.landing))

theorem Method.Written.mono {later : ConstantPool} {method : Method} {info : MemberInfo}
    (written : method.Written pool info) (grows : pool.Grows later) : method.Written later info :=
  ⟨grows _ _ written.named, grows _ _ written.described,
    written.lifts.imp fun _ _ lifts => lifts.mono grows⟩

theorem Method.written_toInfo {method : Method} {info : MemberInfo} (stems : method.Stems pool)
    (faithful : writing.constants.Faithful) (grows : pool.Grows writing.constants.pool)
    (yields : Yields method.toInfo writing info after) :
    after.constants.Faithful ∧ writing.constants.pool.Grows after.constants.pool ∧
      method.Written after.constants.pool info := by
  obtain ⟨attributes, _, changed, rest⟩ := yields_bind.mp yields
  obtain ⟨rfl, rfl⟩ := yields_pure.mp rest
  rcases Method.body_withListing (yields_adapt.mp changed) with
    ⟨absent, absent', rfl⟩ | ⟨body, body', found, found', here⟩
  · have unnamed : method.code.toList = [] := by
      have size := stems.listing.size
      rw [MemberInfo.code_of_none absent] at size
      exact Listing.toList_of_size_zero size
    refine ⟨faithful, .refl _, grows _ _ stems.named, grows _ _ stems.described, ?_⟩
    have none : MemberInfo.code { method.info with attributes } = [] :=
      MemberInfo.code_of_none absent'
    rw [none, unnamed]
    exact .nil
  · have listing := stems.listing
    have distinct := stems.distinct
    rw [MemberInfo.code_of_body found] at listing distinct
    obtain ⟨kept, grown, lifts⟩ :=
      CodeBody.lifts_withListing listing distinct faithful grows here
    have whole := grows.trans grown
    refine ⟨kept, grown, whole _ _ stems.named, whole _ _ stems.described, ?_⟩
    have code : MemberInfo.code { method.info with attributes } = body'.code :=
      MemberInfo.code_of_body found'
    rw [code]
    exact lifts

theorem Class.written_methods {methods : List Method} {infos : List MemberInfo}
    (stems : ∀ method ∈ methods, method.Stems pool) (faithful : writing.constants.Faithful)
    (grows : pool.Grows writing.constants.pool)
    (yields : Yields (methods.mapM Method.toInfo) writing infos after) :
    writing.constants.pool.Grows after.constants.pool ∧
      List.Forall₂ (Method.Written after.constants.pool) methods infos := by
  induction methods generalizing writing infos with
  | nil =>
    obtain ⟨rfl, rfl⟩ := yields_mapM_nil.mp yields
    exact ⟨.refl _, .nil⟩
  | cons method methods ih =>
    obtain ⟨here, others⟩ := List.forall_mem_cons.mp stems
    obtain ⟨info, between, rest, first, behind, rfl⟩ := yields_mapM_cons.mp yields
    obtain ⟨kept, early, written⟩ := Method.written_toInfo here faithful grows first
    obtain ⟨late, writtens⟩ := ih others kept (grows.trans early) behind
    exact ⟨early.trans late, .cons (written.mono late) writtens⟩

theorem Class.yields_toFile {cls : Class} {written : ClassFile} :
    Yields cls.toFile writing written after ↔
      ∃ infos, Yields (cls.methods.mapM Method.toInfo) writing infos after ∧
        written = { cls.file with
          pool := after.constants.pool, fields := cls.fields.map (·.info), methods := infos } := by
  constructor
  · intro yields
    obtain ⟨infos, _, methods, pooling⟩ := yields_bind.mp yields
    obtain ⟨_, _, got, rest⟩ := yields_bind.mp pooling
    obtain ⟨rfl, rfl⟩ := yields_get.mp got
    obtain ⟨rfl, rfl⟩ := yields_pure.mp rest
    exact ⟨infos, methods, rfl⟩
  · rintro ⟨infos, methods, rfl⟩
    exact yields_bind.mpr ⟨infos, after, methods, yields_bind.mpr
      ⟨after, after, yields_get.mpr ⟨rfl, rfl⟩, yields_pure.mpr ⟨rfl, rfl⟩⟩⟩

theorem Class.read_fields {fields : List Field}
    (read : ∀ field ∈ fields, Field.ofInfo pool field.info = .ok field) :
    (fields.map (·.info)).mapM (Field.ofInfo pool) = .ok fields := by
  induction fields with
  | nil => rfl
  | cons field fields ih =>
    obtain ⟨here, others⟩ := List.forall_mem_cons.mp read
    rw [List.map_cons, List.mapM_cons, here, ih others]
    rfl

/-- What was written for methods reads as the methods. -/
theorem Class.read_methods {methods : List Method} {infos : List MemberInfo} {constants : Constants}
    (held : constants.pool = pool)
    (written : List.Forall₂ (Method.Written pool) methods infos) :
    ∃ again constants', Yields (infos.mapM Method.ofInfo) constants again constants' ∧
      again.map Method.key = methods.map Method.key ∧
      again.map (·.code) = methods.map fun method =>
        .ofList (method.code.toList.map (·.relocated method.code.landing)) := by
  induction written generalizing constants with
  | nil => exact ⟨[], constants, yields_mapM_nil.mpr ⟨rfl, rfl⟩, rfl, rfl⟩
  | @cons method info _ _ here _ ih =>
    subst held
    obtain ⟨between, first, kept⟩ := Method.yields_ofInfo here.named here.described here.lifts
    obtain ⟨again, constants', behind, keys, codes⟩ := ih kept
    refine ⟨_, constants', yields_mapM_cons.mpr ⟨_, between, _, first, behind, rfl⟩, ?_, ?_⟩
    · rw [List.map_cons, keys]
      rfl
    · rw [List.map_cons, codes]
      rfl

end Writing

/-- A class that reads as another one: same name, same fields and methods in the same
order, and in each method the live instructions in a row, with every target at the
place of the first live node at or after it. -/
structure Class.Rereads (edited again : Class) : Prop where
  name : again.name = edited.name
  fields : again.fields.map Field.key = edited.fields.map Field.key
  methods : again.methods.map Method.key = edited.methods.map Method.key
  codes : again.methods.map (·.code) = edited.methods.map fun method =>
    .ofList (method.code.toList.map (·.relocated method.code.landing))

/-- What was read from a file and edited since reads back from the file it is written
to. -/
theorem Class.Stems.rereads {file written : ClassFile} {edited : Class} {writing : Writing}
    {events : Array Event} (stems : edited.Stems file)
    (wrote : Yields edited.toFile ⟨⟨edited.file.pool, edited.index⟩, events⟩ written writing) :
    ∃ again, Class.ofFile written = .ok again ∧ edited.Rereads again := by
  obtain ⟨infos, methods, rfl⟩ := Class.yields_toFile.mp wrote
  rw [stems.source] at methods
  obtain ⟨grows, written⟩ := Class.written_methods stems.methods stems.faithful (.refl _) methods
  obtain ⟨again, constants, lifted, keys, codes⟩ :=
    @Class.read_methods _ _ _ (.ofPool writing.constants.pool) rfl written
  have named : writing.constants.pool.Names edited.file.thisClass edited.name := by
    rw [stems.source]
    exact stems.named.mono grows
  have fields : (edited.fields.map (·.info)).mapM (Field.ofInfo writing.constants.pool) =
      .ok edited.fields :=
    Class.read_fields fun field member => Field.ofInfo_eq_ok.mpr
      ((Field.ofInfo_eq_ok.mp (stems.fields field member)).imp_right
        fun read => ⟨grows _ _ read.1, grows _ _ read.2⟩)
  exact ⟨⟨edited.name, edited.fields, again, _, constants.index⟩,
    Class.ofFile_eq_ok.mpr ⟨rfl, named, fields, constants, rfl, lifted⟩, rfl, rfl, keys, codes⟩

/-- A class that was read from a file, and recovered or edited by hand, reads from
the file it is written to as itself: same name, same fields and methods in the
same order, and the listing of each method holds its live instructions in a
row, with every target at the place of the first live node at or after it. -/
theorem Class.ofFile_toFile {file written : ClassFile} {cls edited : Class} {writing : Writing}
    {events : Array Event} (distinct : file.DistinctCases) (read : Class.ofFile file = .ok cls)
    (rewritten : cls.Edits edited ∨ ∃ options stats,
      (recover options cls).result = .ok stats ∧ edited = (recover options cls).cls)
    (wrote : Yields edited.toFile ⟨⟨edited.file.pool, edited.index⟩, events⟩ written writing) :
    ∃ again, Class.ofFile written = .ok again ∧ again.name = edited.name ∧
      again.fields.map Field.key = edited.fields.map Field.key ∧
      again.methods.map Method.key = edited.methods.map Method.key ∧
      again.methods.map (·.code) = edited.methods.map fun method =>
        .ofList (method.code.toList.map (·.relocated method.code.landing)) := by
  have edits : cls.Edits edited := by
    rcases rewritten with edits | ⟨options, stats, fine, rfl⟩
    · exact edits
    · exact recover_edits fine
  have stems := (Class.stems_ofFile distinct read).edits edits
  obtain ⟨again, back, same⟩ := stems.rereads wrote
  exact ⟨again, back, same.name, same.fields, same.methods, same.codes⟩

section Patched

/-- A class with a field and one method, which jumps over an instruction. -/
def skipping : ClassFile where
  minor := 0
  major := 52
  pool := .ofList [.utf8 "Skip", .classRef 1, .utf8 "run", .utf8 "()V", .utf8 "Code",
    .utf8 "count", .utf8 "I"]
  access := 0x21
  thisClass := 2
  superClass := 0
  interfaces := []
  fields := [⟨8, 6, 7, []⟩]
  methods := [⟨8, 3, 4, [.code 5 ⟨1, 0, [.branch .goto 2, .plain .nop, .plain .iconst1, .plain .pop,
    .branch .goto 9, .plain .returnVoid], [], []⟩]⟩]
  attributes := []

/-- Drops the field and the skipped instruction, and puts a number in that has no
entry yet. -/
def patched (cls : Class) : Class :=
  { (cls.editCode 0 (·.remove 1)).editCode 0 (·.replace 2 (.intConst 100000)) with fields := [] }

theorem edits_patched (cls : Class) : cls.Edits (patched cls) := by
  have removed : cls.Edits (cls.editCode 0 (·.remove 1)) :=
    Class.edits_editCode (.single (.remove 1))
  have replaced : (cls.editCode 0 (·.remove 1)).Edits
      ((cls.editCode 0 (·.remove 1)).editCode 0 (·.replace 2 (.intConst 100000))) :=
    Class.edits_editCode (.single (.replace 2 rfl))
  exact (removed.trans replaced).tail (.fields (List.nil_sublist _))

/-- The jump lands on the number that took the third place, and the one behind
the code on its new end. -/
theorem patched_reads_back : ∃ cls written writing again,
    Class.ofFile skipping = .ok cls ∧
      Yields (patched cls).toFile ⟨⟨(patched cls).file.pool, (patched cls).index⟩, #[]⟩
        written writing ∧
      Class.ofFile written = .ok again ∧ again.fields.map Field.key = [] ∧
      again.methods.map (·.code) = [.ofList [.jump (.branch .goto 1) [1], .intConst 100000,
        .plain (.plain .pop), .jump (.branch .goto 5) [5], .plain (.plain .returnVoid)]] := by
  have distinct : skipping.DistinctCases := by
    simp [ClassFile.DistinctCases, skipping, MemberInfo.code, MemberInfo.body?, Attribute.body?,
      Bytecode.DistinctCases]
  obtain ⟨cls, read, written, writing, wrote, moved⟩ : ∃ cls, Class.ofFile skipping = .ok cls ∧
      ∃ written writing, Yields (patched cls).toFile
          ⟨⟨(patched cls).file.pool, (patched cls).index⟩, #[]⟩ written writing ∧
        (patched cls).methods.map (fun method =>
          Listing.ofList (method.code.toList.map (·.relocated method.code.landing))) =
            [.ofList [.jump (.branch .goto 1) [1], .intConst 100000, .plain (.plain .pop),
              .jump (.branch .goto 5) [5], .plain (.plain .returnVoid)]] :=
    ⟨_, rfl, _, _, rfl, rfl⟩
  obtain ⟨again, back, _, fields, _, code⟩ :=
    Class.ofFile_toFile distinct read (.inl (edits_patched cls)) wrote
  exact ⟨cls, written, writing, again, read, wrote, back, fields, code.trans moved⟩

end Patched

/-! ### From bytes to bytes -/

namespace Class

variable {data bytes : Bytes} {cls edited : Class}

theorem decode_eq_ok : decode data = .ok cls ↔
    Grammar.accepts data = true ∧ ∃ file, ClassFile.decode? data = some file ∧
      ofFile file = .ok cls := by
  unfold decode
  cases Grammar.accepts data with
  | false => simp
  | true => cases ClassFile.decode? data <;> simp

/-- A decoded class stems from the file behind its bytes; the decoder sees to it that the
keys of switches are distinct. -/
theorem stems_decode (decoded : decode data = .ok cls) : cls.Stems cls.file := by
  obtain ⟨_, file, found, read⟩ := decode_eq_ok.mp decoded
  have stems := stems_ofFile (ClassFile.distinctCases_of_decode? found) read
  rwa [stems.source]

theorem encode_eq_ok : edited.encode.1 = .ok bytes ↔
    ∃ written writing,
      Yields edited.toFile ⟨⟨edited.file.pool, edited.index⟩, #[]⟩ written writing ∧
        serialize written = .ok bytes := by
  constructor
  · intro encoded
    obtain ⟨written, wrote, serialized⟩ := bind_eq_ok.mp encoded
    exact ⟨written, _, Prod.ext wrote rfl, serialized⟩
  · rintro ⟨written, writing, wrote, serialized⟩
    refine bind_eq_ok.mpr ⟨written, ?_, serialized⟩
    exact congrArg Prod.fst wrote

/-- The bytes of a class that was decoded and edited are those of a class file that reads
as the edited class. -/
theorem encode_rereads (decoded : decode data = .ok cls) (edits : cls.Edits edited)
    (encoded : edited.encode.1 = .ok bytes) :
    ∃ written again, written.encode? = some bytes ∧ ofFile written = .ok again ∧
      edited.Rereads again := by
  obtain ⟨written, writing, wrote, serialized⟩ := encode_eq_ok.mp encoded
  obtain ⟨again, back, same⟩ := ((stems_decode decoded).edits edits).rereads wrote
  refine ⟨written, again, ?_, back, same⟩
  unfold serialize at serialized
  split at serialized
  · rename_i given written
    split at serialized
    · cases serialized
      exact written
    · cases serialized
  · cases serialized

end Class

end LiteralRecovery
