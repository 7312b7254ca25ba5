import LiteralRecovery.Proofs.ClassRoundTrip

/-! Canonical code: every constant is pushed by its shortest instruction, every
pool number that the listing looks through is the one noted for its value, and
no target lies behind the end. Lifting and lowering leave such code as it was,
and so a class file of such methods comes out as it went in. -/
namespace LiteralRecovery

namespace Bytecode

variable {constants : Constants} {code : Bytecode} {instruction : Instruction} {place : Nat → Nat}
variable {limit : Nat}

/-- Whether an int has no push shorter than its load from the pool. -/
def NeedsEntry (value : Int32) : Prop := value < -32768 ∨ 32767 < value

/-- The load is the shortest instruction that pushes the value of its entry. -/
def ShortestLoad : Bytecode → ConstantKey → Prop
  | .ldc _, .integer value => NeedsEntry value
  | .ldc _, .string _ => True
  | .pooled .ldcW number, .integer value => 255 < number.toNat ∧ NeedsEntry value
  | .pooled .ldcW number, .string _ => 255 < number.toNat
  | .pooled .ldc2W _, .long value => value ≠ 0 ∧ value ≠ 1
  | _, _ => False

/-- The number of the member or class that a listing names in place of it. -/
def refers? : Bytecode → Option UInt16
  | .pooled .getstatic number | .pooled .putstatic number | .pooled .invokestatic number
  | .pooled .anewarray number => some number
  | _ => none

/-- A push without a load is the shortest one of its value. -/
def ShortestPush : Bytecode → Prop
  | .bipush value => value < -1 ∨ 5 < value
  | .sipush value => value < -128 ∨ 127 < value
  | _ => True

/-- Code as it is lowered to: constants in their shortest form, numbers as noted,
targets up to the end. -/
structure Canonical (constants : Constants) (limit : Nat) (code : Bytecode) : Prop where
  push : code.ShortestPush
  load : ∀ number key, code.loads? = some number → constants.pool.Denotes number key →
    key.isLoadable = true → code.ShortestLoad key ∧ constants.index.lookup key = some number
  reference : ∀ number key, code.refers? = some number → constants.pool.Denotes number key →
    constants.index.lookup key = some number
  targets : ∀ targets, code.targets? = .ok (some targets) → ∀ target ∈ targets, target ≤ limit

/-! ### One instruction -/

private theorem moveOperand_of_fixed {operand : Int32} (nonnegative : 0 ≤ operand)
    (fixed : place operand.toInt.toNat = operand.toInt.toNat) :
    moveOperand place operand = operand := by
  rw [moveOperand, fixed]
  exact Int32.ofNat_toNatClampNeg operand nonnegative

/-- Targets that lead to themselves stay in their operands. -/
theorem mapTargets_of_fixed {targets : List Nat} (found : code.targets? = .ok (some targets))
    (fixed : ∀ target ∈ targets, place target = target) : code.mapTargets place = code := by
  cases code with
  | branch op target =>
    cases found
    rw [mapTargets, fixed target.toNat List.mem_cons_self, Nat.toUInt16_eq, UInt16.ofNat_toNat]
  | branchWide op target =>
    obtain ⟨nonnegative, rfl⟩ := targets?_of_wide found rfl
    rw [mapTargets, moveOperand_of_fixed (nonnegative _ List.mem_cons_self)
      (fixed _ List.mem_cons_self)]
  | tableswitch fallback low high operands =>
    obtain ⟨nonnegative, rfl⟩ := targets?_of_wide found rfl
    simp only [wideTargets, List.map_cons, List.forall_mem_cons, List.forall_mem_map]
      at nonnegative fixed
    rw [mapTargets, moveOperand_of_fixed nonnegative.1 fixed.1]
    congr 1
    conv_rhs => rw [← List.map_id operands]
    exact List.map_congr_left fun operand member =>
      moveOperand_of_fixed (nonnegative.2 operand member) (fixed.2 operand member)
  | lookupswitch fallback cases =>
    obtain ⟨nonnegative, rfl⟩ := targets?_of_wide found rfl
    simp only [wideTargets, List.map_cons, List.forall_mem_cons, List.forall_mem_map]
      at nonnegative fixed
    rw [mapTargets, moveOperand_of_fixed nonnegative.1 fixed.1]
    congr 1
    conv_rhs => rw [← List.map_id cases]
    exact List.map_congr_left fun entry member =>
      Prod.ext rfl (moveOperand_of_fixed (nonnegative.2 entry member) (fixed.2 entry member))
  | _ => cases found

/-- What is carried along comes back, targets and all. -/
theorem lowerIn_of_other (canonical : Canonical constants limit code)
    (fixed : ∀ target ≤ limit, place target = target) (short : limit < 0x10000)
    (lifted : code.liftOther = .ok instruction) :
    Yields (instruction.lowerIn place) constants code constants := by
  obtain ⟨targets?, found, rest⟩ := bind_eq_ok.mp lifted
  cases targets? with
  | none =>
    cases rest
    exact yields_pure.mpr ⟨rfl, rfl⟩
  | some targets =>
    cases rest
    have inside := canonical.targets targets found
    have same : ∀ target ∈ targets, place target = target :=
      fun target member => fixed target (inside target member)
    have small : ∀ target ∈ targets, place target < 0x10000 := by
      intro target member
      rw [same target member]
      exact Nat.lt_of_le_of_lt (inside target member) short
    have placed := (withTargets_place found small).1
    rw [mapTargets_of_fixed found same] at placed
    exact yields_liftM.mpr ⟨placed, rfl⟩

/-- An int beyond the one-byte constants is pushed by what is left. -/
private theorem lowerInt_of_outside {value : Int32} (outside : value.toInt < -1 ∨ 5 < value.toInt) :
    Instruction.lowerInt value =
      if -128 ≤ value ∧ value ≤ 127 then pure (.bipush value.toInt8)
      else if -32768 ≤ value ∧ value ≤ 32767 then pure (.sipush value.toInt16)
      else do return Instruction.loadConstant (← Constants.intern (.integer value)) := by
  have differs (constant : Int32) (near : -1 ≤ constant.toInt ∧ constant.toInt ≤ 5) :
      value ≠ constant := by
    rintro rfl
    omega
  rw [Instruction.lowerInt, if_neg (differs (-1) (by decide)), if_neg (differs 0 (by decide)),
    if_neg (differs 1 (by decide)), if_neg (differs 2 (by decide)), if_neg (differs 3 (by decide)),
    if_neg (differs 4 (by decide)), if_neg (differs 5 (by decide))]

theorem lowerInt_bipush {value : Int8} (shortest : value < -1 ∨ 5 < value) :
    Yields (Instruction.lowerInt value.toInt32) constants (.bipush value) constants := by
  have outside : value.toInt < -1 ∨ 5 < value.toInt :=
    shortest.imp Int8.lt_iff_toInt_lt.mp Int8.lt_iff_toInt_lt.mp
  have fits : -128 ≤ value.toInt32 ∧ value.toInt32 ≤ 127 := by
    rw [Int32.le_iff_toInt_le, Int32.le_iff_toInt_le, Int8.toInt_toInt32]
    exact ⟨value.le_toInt, Int.le_of_lt_add_one value.toInt_lt⟩
  rw [lowerInt_of_outside (by rwa [Int8.toInt_toInt32]), if_pos fits, Int8.toInt8_toInt32]
  exact yields_pure.mpr ⟨rfl, rfl⟩

theorem lowerInt_sipush {value : Int16} (shortest : value < -128 ∨ 127 < value) :
    Yields (Instruction.lowerInt value.toInt32) constants (.sipush value) constants := by
  have outside : value.toInt < -128 ∨ 127 < value.toInt :=
    shortest.imp Int16.lt_iff_toInt_lt.mp Int16.lt_iff_toInt_lt.mp
  have long : ¬ (-128 ≤ value.toInt32 ∧ value.toInt32 ≤ 127) := by
    rw [Int32.le_iff_toInt_le, Int32.le_iff_toInt_le, Int16.toInt_toInt32]
    show ¬ (-128 ≤ value.toInt ∧ value.toInt ≤ 127)
    omega
  have fits : -32768 ≤ value.toInt32 ∧ value.toInt32 ≤ 32767 := by
    rw [Int32.le_iff_toInt_le, Int32.le_iff_toInt_le, Int16.toInt_toInt32]
    exact ⟨value.le_toInt, Int.le_of_lt_add_one value.toInt_lt⟩
  have far : value.toInt32.toInt < -1 ∨ 5 < value.toInt32.toInt := by
    rw [Int16.toInt_toInt32]
    omega
  rw [lowerInt_of_outside far, if_neg long, if_pos fits, Int16.toInt16_toInt32]
  exact yields_pure.mpr ⟨rfl, rfl⟩

theorem lowerInt_needsEntry {value : Int32} {number : UInt16} (needs : NeedsEntry value)
    (noted : constants.index.lookup (.integer value) = some number) :
    Yields (Instruction.lowerInt value) constants (Instruction.loadConstant number) constants := by
  have outside : value.toInt < -32768 ∨ 32767 < value.toInt :=
    needs.imp Int32.lt_iff_toInt_lt.mp Int32.lt_iff_toInt_lt.mp
  have short : ¬ (-128 ≤ value ∧ value ≤ 127) := by
    rw [Int32.le_iff_toInt_le, Int32.le_iff_toInt_le]
    show ¬ (-128 ≤ value.toInt ∧ value.toInt ≤ 127)
    omega
  have medium : ¬ (-32768 ≤ value ∧ value ≤ 32767) := by
    rw [Int32.le_iff_toInt_le, Int32.le_iff_toInt_le]
    show ¬ (-32768 ≤ value.toInt ∧ value.toInt ≤ 32767)
    omega
  rw [lowerInt_of_outside (by omega), if_neg short, if_neg medium]
  exact yields_bind.mpr ⟨number, constants, Constants.yields_intern_of_noted noted,
    yields_pure.mpr ⟨rfl, rfl⟩⟩

private theorem loadConstant_toUInt16 (number : UInt8) :
    Instruction.loadConstant number.toUInt16 = .ldc number := by
  have small : number.toUInt16.toNat < 0x100 := by
    simpa using number.toNat_lt
  rw [Instruction.loadConstant, if_pos small, UInt8.toUInt8_toUInt16]

theorem loadConstant_of_shortest {number : UInt16} {key : ConstantKey}
    (loads : code.loads? = some number) (shortest : code.ShortestLoad key)
    (single : ∀ value, key ≠ .long value) : Instruction.loadConstant number = code := by
  unfold ShortestLoad at shortest
  split at shortest
  · cases loads
    exact loadConstant_toUInt16 _
  · cases loads
    exact loadConstant_toUInt16 _
  · cases loads
    exact if_neg (Nat.not_lt.mpr shortest.1)
  · cases loads
    exact if_neg (Nat.not_lt.mpr shortest)
  · exact absurd rfl (single _)
  · cases shortest

theorem lowerIn_of_load {number : UInt16} {after : Constants}
    (canonical : Canonical constants limit code) (loads : code.loads? = some number)
    (lifted : Yields (code.liftLoad number) constants instruction after) :
    Yields (instruction.lowerIn place) constants code constants := by
  rcases yields_liftLoad.mp lifted with ⟨key, denotes, valued, -⟩ | ⟨constant, _, _, rfl, -⟩
  · cases key with
    | integer value =>
      cases valued
      obtain ⟨shortest, noted⟩ := canonical.load number _ loads denotes rfl
      have needs : NeedsEntry value := by
        unfold ShortestLoad at shortest
        split at shortest <;> simp_all
      have form := loadConstant_of_shortest loads shortest (by simp)
      exact yields_adapt.mpr (form ▸ lowerInt_needsEntry needs noted)
    | long value =>
      cases valued
      obtain ⟨shortest, noted⟩ := canonical.load number _ loads denotes rfl
      unfold ShortestLoad at shortest
      split at shortest
      case h_5 same =>
        cases same
        cases loads
        have lowered : Yields (Instruction.lowerLong value) constants (.pooled .ldc2W number)
            constants := by
          rw [Instruction.lowerLong, if_neg shortest.1, if_neg shortest.2]
          exact yields_bind.mpr ⟨number, constants, Constants.yields_intern_of_noted noted,
            yields_pure.mpr ⟨rfl, rfl⟩⟩
        exact yields_adapt.mpr lowered
      all_goals simp_all
    | string text =>
      cases valued
      obtain ⟨shortest, noted⟩ := canonical.load number _ loads denotes rfl
      have form := loadConstant_of_shortest loads shortest (by simp)
      have lowered : Yields (Instruction.lower (.stringConst (.ofText text))) constants
          (Instruction.loadConstant number) constants := by
        rw [Instruction.lower, UnitString.toText?_ofText]
        exact yields_bind.mpr ⟨number, constants,
          yields_adapt.mpr (Constants.yields_intern_of_noted noted), yields_pure.mpr ⟨rfl, rfl⟩⟩
      exact form ▸ lowered
    | _ => cases valued
  · exact yields_pure.mpr ⟨rfl, rfl⟩

/-- Canonical code is what its instruction is lowered to, and nothing is added on
the way. -/
theorem Canonical.lowerIn (canonical : Canonical constants limit code)
    (fixed : ∀ target ≤ limit, place target = target) (short : limit < 0x10000)
    (lifts : code.Lifts constants.pool instruction) :
    Yields (instruction.lowerIn place) constants code constants := by
  obtain ⟨after, lifted, _⟩ := lifts.yields
  have other (carried : Yields (liftM code.liftOther : ConstantsM CodeError _) constants instruction
      after) : Yields (instruction.lowerIn place) constants code constants :=
    lowerIn_of_other canonical fixed short (yields_liftM.mp carried).1
  cases code with
  | plain op =>
    cases op
    all_goals
      first
      | exact other lifted
      | obtain ⟨rfl, rfl⟩ := yields_pure.mp lifted
        exact yields_pure.mpr ⟨rfl, rfl⟩
  | bipush value =>
    obtain ⟨rfl, rfl⟩ := yields_pure.mp lifted
    exact yields_adapt.mpr (lowerInt_bipush canonical.push)
  | sipush value =>
    obtain ⟨rfl, rfl⟩ := yields_pure.mp lifted
    exact yields_adapt.mpr (lowerInt_sipush canonical.push)
  | ldc number => exact lowerIn_of_load canonical rfl (yields_adapt.mp lifted)
  | pooled op number =>
    have naming {key : ConstantKey} {build : UInt16 → Bytecode}
        (refers : (Bytecode.pooled op number).refers? = some number)
        (denotes : constants.pool.Denotes number key) (same : build number = .pooled op number) :
        Yields (do return build (← (Constants.intern key).adapt CodeError.constant)) constants
          (.pooled op number) constants :=
      yields_bind.mpr ⟨number, constants, yields_adapt.mpr
        (Constants.yields_intern_of_noted (canonical.reference number key refers denotes)),
        yields_pure.mpr ⟨same.symm, rfl⟩⟩
    cases op with
    | ldcW => exact lowerIn_of_load canonical rfl (yields_adapt.mp lifted)
    | ldc2W => exact lowerIn_of_load canonical rfl (yields_adapt.mp lifted)
    | getstatic =>
      obtain ⟨field, _, read, rest⟩ := yields_bind.mp lifted
      obtain ⟨denotes, _⟩ := Constants.yields_fieldRef.mp (yields_adapt.mp read)
      obtain ⟨rfl, _⟩ := yields_pure.mp rest
      exact naming rfl denotes rfl
    | putstatic =>
      obtain ⟨field, _, read, rest⟩ := yields_bind.mp lifted
      obtain ⟨denotes, _⟩ := Constants.yields_fieldRef.mp (yields_adapt.mp read)
      obtain ⟨rfl, _⟩ := yields_pure.mp rest
      exact naming rfl denotes rfl
    | invokestatic =>
      obtain ⟨⟨target, onInterface⟩, _, read, rest⟩ := yields_bind.mp lifted
      obtain ⟨denotes, _⟩ := Constants.yields_methodRef.mp (yields_adapt.mp read)
      obtain ⟨rfl, _⟩ := yields_pure.mp rest
      exact naming rfl denotes rfl
    | anewarray =>
      obtain ⟨element, _, read, rest⟩ := yields_bind.mp lifted
      obtain ⟨denotes, _⟩ := Constants.yields_classRef.mp (yields_adapt.mp read)
      obtain ⟨rfl, _⟩ := yields_pure.mp rest
      exact naming rfl denotes rfl
    | _ => exact other lifted
  | newarray element =>
    cases element
    case int | long =>
      obtain ⟨rfl, rfl⟩ := yields_pure.mp lifted
      exact yields_pure.mpr ⟨rfl, rfl⟩
    all_goals exact other lifted
  | _ => exact other lifted

end Bytecode

/-! ### Whole sequences -/

section Sequences

variable {constants : Constants} {code : List Bytecode} {instructions : List Instruction}

private theorem lowerEach_of_canonical {place : Nat → Nat} {limit : Nat}
    (canonical : ∀ held ∈ code, held.Canonical constants limit)
    (fixed : ∀ target ≤ limit, place target = target) (short : limit < 0x10000)
    (lifts : List.Forall₂ (Bytecode.Lifts constants.pool) code instructions) :
    Yields (instructions.mapM (·.lowerIn place)) constants code constants := by
  induction lifts with
  | nil => exact yields_mapM_nil.mpr ⟨rfl, rfl⟩
  | cons here _ ih =>
    obtain ⟨first, others⟩ := List.forall_mem_cons.mp canonical
    exact yields_mapM_cons.mpr ⟨_, _, _, first.lowerIn fixed short here, ih others, rfl⟩

theorem length_ofList {α : Type} (contents : List α) :
    (Listing.ofList contents).length = contents.length := by
  have count := congrArg List.length (Listing.toList_ofList contents)
  simpa only [Listing.toList, Listing.length, List.length_map] using count

/-- Canonical code is what its listing is lowered to, with every position where
it was. -/
theorem lowerCode_of_canonical (canonical : ∀ held ∈ code, held.Canonical constants code.length)
    (short : code.length < 0x10000)
    (lifts : List.Forall₂ (Bytecode.Lifts constants.pool) code instructions) :
    ∃ relocation, Yields (lowerCode (.ofList instructions) code.length) constants
        ⟨code, relocation⟩ constants ∧
      ∀ position ≤ code.length, relocation.map position = position := by
  have stems := Listing.stems_ofList lifts
  have length : (Listing.ofList instructions).length = code.length := by
    rw [length_ofList, lifts.length_eq]
  have places : (Listing.ofList instructions).placeOf (Listing.ofList instructions).ranks
      (Listing.ofList instructions).length = (Listing.ofList instructions).landing :=
    funext (Listing.placeOf_eq_landing stems.unclosed)
  -- a listing that has lost no node has every target where it was
  have fixed : ∀ target ≤ code.length, (Listing.ofList instructions).landing target = target :=
    fun target inside => Listing.landing_of_full (length.trans stems.size.symm)
      (stems.size.symm ▸ inside)
  refine ⟨_, yields_lowerCode.mpr ⟨length ▸ short, ?_, rfl⟩, fun position inside => ?_⟩
  · rw [Listing.toList_ofList, places]
    exact lowerEach_of_canonical canonical fixed short lifts
  · rw [Relocation.map, places, length]
    simp only [Array.getD_eq_getD_getElem?, Array.getElem?_map, Array.getElem?_range]
    rcases Nat.lt_or_eq_of_le inside with before | rfl
    · simp [before, fixed position inside]
    · simp

end Sequences

/-! ### Whole classes -/

section Classes

variable {pool : ConstantPool} {list : Listing Instruction} {writing : Writing}

theorem CodeBody.withListing_of_lowered {body : CodeBody Attribute} {relocation : Relocation}
    (distinct : ∀ held ∈ body.code, held.DistinctCases)
    (lowered : Yields (lowerCode list body.code.length) writing.constants ⟨body.code, relocation⟩
      writing.constants) : Yields (body.withListing list) writing body writing := by
  refine yields_bind.mpr ⟨⟨body.code, relocation⟩, writing,
    Writing.yields_onConstants.mpr ⟨_, yields_adapt.mpr lowered, rfl⟩, ?_⟩
  rw [if_pos (Bytecode.sameCode_self distinct)]
  exact yields_pure.mpr ⟨rfl, rfl⟩

theorem Method.withListing_of_same {attributes : List Attribute}
    (same : ∀ body, attributes.findSome? Attribute.body? = some body →
      Yields (body.withListing list) writing body writing) :
    Yields (withListing list attributes) writing attributes writing := by
  induction attributes with
  | nil => exact yields_pure.mpr ⟨rfl, rfl⟩
  | cons first rest ih =>
    cases first
    case code name body =>
      exact yields_bind.mpr ⟨body, writing, same body rfl, yields_pure.mpr ⟨rfl, rfl⟩⟩
    all_goals
      exact yields_bind.mpr ⟨rest, writing, ih same, yields_pure.mpr ⟨rfl, rfl⟩⟩

theorem Method.toInfo_of_canonical {info : MemberInfo} {method : Method}
    (reads : method.Reads writing.constants.pool info)
    (distinct : ∀ held ∈ info.code, held.DistinctCases) (short : info.code.length < 0x10000)
    (canonical : ∀ held ∈ info.code, held.Canonical writing.constants info.code.length) :
    Yields method.toInfo writing info writing := by
  obtain ⟨rfl, _, _, instructions, code, lifts⟩ := reads
  obtain ⟨relocation, lowered, _⟩ := lowerCode_of_canonical canonical short lifts
  refine yields_bind.mpr ⟨method.info.attributes, writing, yields_adapt.mpr ?_,
    yields_pure.mpr ⟨rfl, rfl⟩⟩
  apply Method.withListing_of_same
  intro body found
  have held := MemberInfo.code_of_body found
  rw [held] at distinct lowered
  rw [code]
  exact CodeBody.withListing_of_lowered distinct lowered

private theorem toInfo_each {infos : List MemberInfo} {methods : List Method}
    (reads : List.Forall₂ (Method.Reads writing.constants.pool) infos methods)
    (distinct : ∀ info ∈ infos, ∀ held ∈ info.code, held.DistinctCases)
    (canonical : ∀ info ∈ infos, info.code.length < 0x10000 ∧
      ∀ held ∈ info.code, held.Canonical writing.constants info.code.length) :
    Yields (methods.mapM Method.toInfo) writing infos writing := by
  induction reads with
  | nil => exact yields_mapM_nil.mpr ⟨rfl, rfl⟩
  | cons here _ ih =>
    obtain ⟨first, others⟩ := List.forall_mem_cons.mp distinct
    obtain ⟨⟨short, forms⟩, behind⟩ := List.forall_mem_cons.mp canonical
    exact yields_mapM_cons.mpr ⟨_, _, _, Method.toInfo_of_canonical here first short forms,
      ih others behind, rfl⟩

/-- A file of canonical methods is written as it was read. -/
theorem Class.toFile_of_canonical {file : ClassFile} {cls : Class} (events : Array Event)
    (distinct : file.DistinctCases) (read : Class.ofFile file = .ok cls)
    (canonical : ∀ info ∈ file.methods, info.code.length < 0x10000 ∧
      ∀ held ∈ info.code, held.Canonical ⟨file.pool, cls.index⟩ info.code.length) :
    Yields cls.toFile ⟨⟨file.pool, cls.index⟩, events⟩ file ⟨⟨file.pool, cls.index⟩, events⟩ := by
  obtain ⟨source, _, declared, _, _, lifted⟩ := Class.ofFile_eq_ok.mp read
  obtain ⟨reads, _, _⟩ := Class.reads_methods lifted
  obtain ⟨fields, _⟩ := Class.reads_fields declared
  refine Class.yields_toFile.mpr ⟨file.methods, toInfo_each reads distinct canonical, ?_⟩
  rw [source, fields]

end Classes

/-- Canonical code of at most 65535 instructions survives lifting and lowering:
the code, the pool and all positions stay as they were. A class of methods with
such code is written to the very file it was read from. -/
theorem canonical_code_unchanged :
    (∀ (code : List Bytecode) (before lifted : Constants) (list : Listing Instruction),
      Yields (liftCode code) before list lifted → code.length < 0x10000 →
      (∀ held ∈ code, held.Canonical lifted code.length) →
      ∃ relocation, Yields (lowerCode list code.length) lifted ⟨code, relocation⟩ lifted ∧
        ∀ position ≤ code.length, relocation.map position = position) ∧
    ∀ (file : ClassFile) (cls : Class) (events : Array Event), file.DistinctCases →
      Class.ofFile file = .ok cls →
      (∀ info ∈ file.methods, info.code.length < 0x10000 ∧
        ∀ held ∈ info.code, held.Canonical ⟨file.pool, cls.index⟩ info.code.length) →
      Yields cls.toFile ⟨⟨file.pool, cls.index⟩, events⟩ file ⟨⟨file.pool, cls.index⟩, events⟩ := by
  constructor
  · intro code before lifted list lifting short canonical
    obtain ⟨⟨instructions, rfl, lifts⟩, pool, _⟩ := lifts_of_liftCode lifting
    rw [← pool] at lifts
    exact lowerCode_of_canonical canonical short lifts
  · intro file cls events distinct read canonical
    exact Class.toFile_of_canonical events distinct read canonical

/-- A decoded class of such methods has the bytes of the file it was decoded from. -/
theorem Class.encode_of_canonical {data : Bytes} {cls : Class}
    (decoded : Class.decode data = .ok cls)
    (canonical : ∀ info ∈ cls.file.methods, info.code.length < 0x10000 ∧
      ∀ held ∈ info.code, held.Canonical ⟨cls.file.pool, cls.index⟩ info.code.length) :
    cls.encode = (Class.serialize cls.file, #[]) := by
  obtain ⟨_, file, found, read⟩ := Class.decode_eq_ok.mp decoded
  have distinct := ClassFile.distinctCases_of_decode? found
  obtain rfl : cls.file = file := (Class.stems_ofFile distinct read).source
  have wrote : cls.toFile.run.run ⟨⟨cls.file.pool, cls.index⟩, #[]⟩ =
      (.ok cls.file, ⟨⟨cls.file.pool, cls.index⟩, #[]⟩) :=
    Class.toFile_of_canonical #[] distinct read canonical
  simp only [Class.encode, wrote]
  rfl

section Loading

/-- A method that loads a number and branches back to it. -/
def loading : ClassFile where
  minor := 0
  major := 52
  pool := .ofList [.utf8 "Load", .classRef 1, .utf8 "run", .utf8 "()V", .utf8 "Code",
    .integer 100000]
  access := 0x21
  thisClass := 2
  superClass := 0
  interfaces := []
  fields := []
  methods := [⟨8, 3, 4, [.code 5 ⟨1, 0, [.ldc 6, .bipush 9, .branch .goto 0], [], []⟩]⟩]
  attributes := []

/-- What is known of the pool once the number has been read. -/
def loadingConstants : Constants := ⟨loading.pool, ⟨[(.integer 100000, 6)]⟩⟩

theorem canonical_ldc : (Bytecode.ldc 6).Canonical loadingConstants 3 where
  push := trivial
  load number key loads denotes _ := by
    cases loads
    have entry : loadingConstants.pool.get? (UInt8.toUInt16 6) = some (.integer 100000) := rfl
    cases denotes with
    | integer held =>
      rw [entry] at held
      cases held
      exact ⟨.inr (by decide), rfl⟩
    | classRef named =>
      obtain ⟨text, held, _⟩ := named
      rw [entry] at held
      cases held
    | long held | string held | field held | method held | interfaceMethod held =>
      rw [entry] at held
      cases held
  reference _ _ refers := by cases refers
  targets _ found := by cases found

theorem canonical_bipush : (Bytecode.bipush 9).Canonical loadingConstants 3 where
  push := .inr (by decide)
  load _ _ loads := by cases loads
  reference _ _ refers := by cases refers
  targets _ found := by cases found

theorem canonical_goto : (Bytecode.branch .goto 0).Canonical loadingConstants 3 where
  push := trivial
  load _ _ loads := by cases loads
  reference _ _ refers := by cases refers
  targets _ found target member := by
    cases found
    rw [List.mem_singleton.mp member]
    exact Nat.zero_le 3

theorem loading_unchanged : ∃ cls list relocation,
    Class.ofFile loading = .ok cls ∧
    Yields cls.toFile ⟨loadingConstants, #[]⟩ loading ⟨loadingConstants, #[]⟩ ∧
    Yields (liftCode [.ldc 6, .bipush 9, .branch .goto 0]) (.ofPool loading.pool) list
      loadingConstants ∧
    Yields (lowerCode list 3) loadingConstants ⟨[.ldc 6, .bipush 9, .branch .goto 0], relocation⟩
      loadingConstants := by
  have canonical : ∀ held ∈ [Bytecode.ldc 6, .bipush 9, .branch .goto 0],
      held.Canonical loadingConstants 3 := by
    simp only [List.forall_mem_cons]
    exact ⟨canonical_ldc, canonical_bipush, canonical_goto, by simp⟩
  have distinct : loading.DistinctCases := by
    simp [ClassFile.DistinctCases, loading, MemberInfo.code, MemberInfo.body?, Attribute.body?,
      Bytecode.DistinctCases]
  obtain ⟨cls, read, noted⟩ : ∃ cls, Class.ofFile loading = .ok cls ∧
      cls.index = loadingConstants.index := ⟨_, rfl, rfl⟩
  obtain ⟨list, lifted⟩ : ∃ list, Yields (liftCode [.ldc 6, .bipush 9, .branch .goto 0])
      (.ofPool loading.pool) list loadingConstants := ⟨_, rfl⟩
  obtain ⟨relocation, lowered, _⟩ :=
    canonical_code_unchanged.1 _ _ _ _ lifted (by decide) canonical
  have written := canonical_code_unchanged.2 loading cls #[] distinct read (by
    rw [noted]
    exact List.forall_mem_singleton.mpr ⟨by decide, canonical⟩)
  rw [noted] at written
  exact ⟨cls, list, relocation, read, written, lifted, lowered⟩

end Loading

section Nops

/-- One instruction more than a method may have. -/
def tooManyNops : List Bytecode := List.replicate 0x10000 (.plain .nop)

theorem canonical_nop (constants : Constants) (limit : Nat) :
    (Bytecode.plain .nop).Canonical constants limit where
  push := trivial
  load _ _ loads := by cases loads
  reference _ _ refers := by cases refers
  targets _ found := by cases found

/-- Canonical code that is lifted but not lowered again. -/
theorem tooManyNops_not_lowered : ∃ list lifted,
    Yields (liftCode tooManyNops) (.ofPool .empty) list lifted ∧
      (∀ held ∈ tooManyNops, held.Canonical lifted tooManyNops.length) ∧
      ∀ lowered after, ¬ Yields (lowerCode list tooManyNops.length) lifted lowered after := by
  have lifts (count : Nat) : List.Forall₂ (Bytecode.Lifts ConstantPool.empty)
      (List.replicate count (.plain .nop)) (List.replicate count (.plain (.plain .nop))) := by
    induction count with
    | zero => exact .nil
    | succ count ih => exact .cons (.fixed (fun _ => rfl) rfl) ih
  obtain ⟨lifted, lifting, _⟩ := @yields_liftCode (.ofPool .empty) _ _ (lifts 0x10000)
  refine ⟨_, lifted, lifting, fun held member => ?_, fun lowered after lowering => ?_⟩
  · rw [List.eq_of_mem_replicate member]
    exact canonical_nop _ _
  · obtain ⟨short, _⟩ := yields_lowerCode.mp lowering
    rw [length_ofList, List.length_replicate] at short
    exact Nat.lt_irrefl _ short

end Nops

end LiteralRecovery
