import LiteralRecovery.Listing.Lift
import LiteralRecovery.Listing.Lower
import LiteralRecovery.Proofs.ConstantValues
import LiteralRecovery.Proofs.Shapes
import LiteralRecovery.Proofs.UnitText

/-! One instruction on its way into a listing and back. What a code stands for
depends on the pool alone and survives its growth. The code that an instruction
is lowered to stands for that instruction, jumps moved along with their
targets. -/
namespace LiteralRecovery

namespace Bytecode

variable {pool later : ConstantPool} {code : Bytecode} {instruction : Instruction}
variable {number : UInt16}

/-- The number that a load takes its constant from. -/
def loads? : Bytecode → Option UInt16
  | .ldc number => some number.toUInt16
  | .pooled .ldcW number | .pooled .ldc2W number => some number
  | _ => none

/-- The instruction that loads a value. -/
def loadOf? : ConstantKey → Option Instruction
  | .integer value => some (.intConst value)
  | .long value => some (.longConst value)
  | .string text => some (.stringConst (.ofText text))
  | _ => none

/-- What a listing keeps of a code that it does not look into. -/
def Keeps (code : Bytecode) : Instruction → Prop
  | .plain carried => carried = code
  | .jump jumped targets => jumped = code ∧ code.targets? = .ok (some targets)
  | _ => True

theorem keeps_of_liftOther (lifted : code.liftOther = .ok instruction) :
    code.Keeps instruction := by
  obtain ⟨targets?, found, rest⟩ := bind_eq_ok.mp lifted
  cases targets? with
  | none =>
    cases rest
    exact rfl
  | some targets =>
    cases rest
    exact ⟨rfl, found⟩

/-- What a code stands for, given what the numbers of the pool stand for. -/
inductive Lifts (pool : ConstantPool) : Bytecode → Instruction → Prop where
  /-- The pool is not looked at. -/
  | fixed {code : Bytecode} {instruction : Instruction}
      (always : ∀ constants, Yields code.lift constants instruction constants)
      (keeps : code.Keeps instruction) : Lifts pool code instruction
  | load {code : Bytecode} {number : UInt16} {key : ConstantKey} {instruction : Instruction}
      (loads : code.loads? = some number) (denotes : pool.Denotes number key)
      (value : loadOf? key = some instruction) : Lifts pool code instruction
  /-- A load of something that is not followed. -/
  | carried {code : Bytecode} {number : UInt16} {constant : Constant}
      (loads : code.loads? = some number) (held : pool.get? number = some constant)
      (other : constant.isLoadable = false) : Lifts pool code (.plain code)
  | getStatic {number : UInt16} {field : MemberRef}
      (denotes : pool.Denotes number (.field field)) :
      Lifts pool (.pooled .getstatic number) (.getStatic field)
  | putStatic {number : UInt16} {field : MemberRef}
      (denotes : pool.Denotes number (.field field)) :
      Lifts pool (.pooled .putstatic number) (.putStatic field)
  | invokeStatic {number : UInt16} {target : MemberRef} {onInterface : Bool}
      (denotes : pool.Denotes number (.ofMethod target onInterface)) :
      Lifts pool (.pooled .invokestatic number) (.invokeStatic target onInterface)
  | newArray {number : UInt16} {element : String}
      (denotes : pool.Denotes number (.classRef element)) :
      Lifts pool (.pooled .anewarray number) (.newArray (.reference element))

theorem Lifts.mono (lifts : Lifts pool code instruction) (grows : pool.Grows later) :
    Lifts later code instruction := by
  cases lifts with
  | fixed always keeps => exact .fixed always keeps
  | load loads denotes value => exact .load loads (denotes.mono grows) value
  | carried loads held other => exact .carried loads (grows _ _ held) other
  | getStatic denotes => exact .getStatic (denotes.mono grows)
  | putStatic denotes => exact .putStatic (denotes.mono grows)
  | invokeStatic denotes => exact .invokeStatic (denotes.mono grows)
  | newArray denotes => exact .newArray (denotes.mono grows)

/-! ### Lifting -/

theorem lift_of_loads (loads : code.loads? = some number) :
    code.lift = (code.liftLoad number).adapt .constant := by
  unfold loads? at loads
  split at loads <;> cases loads <;> rfl

/-- The codes that are lifted without a look at the pool, and the others. -/
theorem lift_cases (code : Bytecode) :
    (∃ outcome, (∀ constants, code.lift constants = (outcome, constants)) ∧
        ∀ instruction, outcome = .ok instruction → code.Keeps instruction) ∨
      (∃ number, code.loads? = some number) ∨ (∃ number, code = .pooled .getstatic number) ∨
      (∃ number, code = .pooled .putstatic number) ∨
      (∃ number, code = .pooled .invokestatic number) ∨
      ∃ number, code = .pooled .anewarray number := by
  have carried {code : Bytecode}
      (other : ∀ constants, code.lift constants = (code.liftOther, constants)) :
      ∃ outcome, (∀ constants, code.lift constants = (outcome, constants)) ∧
        ∀ instruction, outcome = .ok instruction → code.Keeps instruction :=
    ⟨_, other, fun _ => keeps_of_liftOther⟩
  cases code with
  | plain op =>
    cases op <;> exact .inl ⟨_, fun _ => rfl, by rintro _ ⟨⟩; simp [Keeps]⟩
  | bipush value => exact .inl ⟨_, fun _ => rfl, by rintro _ ⟨⟩; trivial⟩
  | sipush value => exact .inl ⟨_, fun _ => rfl, by rintro _ ⟨⟩; trivial⟩
  | ldc number => exact .inr (.inl ⟨_, rfl⟩)
  | pooled op number =>
    cases op with
    | ldcW => exact .inr (.inl ⟨_, rfl⟩)
    | ldc2W => exact .inr (.inl ⟨_, rfl⟩)
    | getstatic => exact .inr (.inr (.inl ⟨_, rfl⟩))
    | putstatic => exact .inr (.inr (.inr (.inl ⟨_, rfl⟩)))
    | invokestatic => exact .inr (.inr (.inr (.inr (.inl ⟨_, rfl⟩))))
    | anewarray => exact .inr (.inr (.inr (.inr (.inr ⟨_, rfl⟩))))
    | _ => exact .inl (carried fun _ => rfl)
  | newarray element =>
    cases element with
    | int => exact .inl ⟨_, fun _ => rfl, by rintro _ ⟨⟩; trivial⟩
    | long => exact .inl ⟨_, fun _ => rfl, by rintro _ ⟨⟩; trivial⟩
    | _ => exact .inl (carried fun _ => rfl)
  | _ => exact .inl (carried fun _ => rfl)

theorem yields_liftLoad {constants after : Constants} :
    Yields (code.liftLoad number) constants instruction after ↔
      (∃ key, constants.pool.Denotes number key ∧ loadOf? key = some instruction ∧
        after = constants.withNote key number) ∨
      ∃ constant, constants.pool.get? number = some constant ∧ constant.isLoadable = false ∧
        instruction = .plain code ∧ after = constants := by
  simp only [liftLoad, yields_bind, Constants.yields_loadable]
  constructor
  · rintro ⟨_, between, ⟨key, loads, denotes, rfl, rfl⟩ | ⟨constant, held, other, rfl, rfl⟩, rest⟩
    · left
      cases key with
      | integer value =>
        obtain ⟨rfl, rfl⟩ := yields_pure.mp rest
        exact ⟨_, denotes, rfl, rfl⟩
      | long value =>
        obtain ⟨rfl, rfl⟩ := yields_pure.mp rest
        exact ⟨_, denotes, rfl, rfl⟩
      | string text =>
        obtain ⟨rfl, rfl⟩ := yields_pure.mp rest
        exact ⟨_, denotes, rfl, rfl⟩
      | _ => cases loads
    · obtain ⟨rfl, rfl⟩ := yields_pure.mp rest
      exact .inr ⟨constant, held, other, rfl, rfl⟩
  · rintro (⟨key, denotes, value, rfl⟩ | ⟨constant, held, other, rfl, rfl⟩)
    · refine ⟨some key, _, .inl ⟨key, ?_, denotes, rfl, rfl⟩, ?_⟩
      · cases key <;> first | rfl | cases value
      · cases key <;> cases value <;> exact yields_pure.mpr ⟨rfl, rfl⟩
    · exact ⟨none, _, .inr ⟨constant, held, other, rfl, rfl⟩, yields_pure.mpr ⟨rfl, rfl⟩⟩

/-- What a successful lift tells: the meaning of the code, and that nothing but a
faithful note is added. -/
theorem lifts_of_yields {constants after : Constants}
    (yields : Yields code.lift constants instruction after) :
    Lifts constants.pool code instruction ∧ after.pool = constants.pool ∧
      (constants.Faithful → after.Faithful) := by
  rcases lift_cases code with ⟨outcome, fixed, keeps⟩ | ⟨number, loads⟩ | ⟨number, rfl⟩ | ⟨number, rfl⟩ |
    ⟨number, rfl⟩ | ⟨number, rfl⟩
  · rw [Yields, fixed] at yields
    cases yields
    exact ⟨.fixed fixed (keeps _ rfl), rfl, id⟩
  · rw [lift_of_loads loads, yields_adapt, yields_liftLoad] at yields
    rcases yields with ⟨key, denotes, value, rfl⟩ | ⟨constant, held, other, rfl, rfl⟩
    · exact ⟨.load loads denotes value, rfl, fun faithful => faithful.withNote denotes⟩
    · exact ⟨.carried loads held other, rfl, id⟩
  · obtain ⟨_, _, read, rest⟩ := yields_bind.mp yields
    obtain ⟨denotes, rfl⟩ := Constants.yields_fieldRef.mp (yields_adapt.mp read)
    obtain ⟨rfl, rfl⟩ := yields_pure.mp rest
    exact ⟨.getStatic denotes, rfl, fun faithful => faithful.withNote denotes⟩
  · obtain ⟨_, _, read, rest⟩ := yields_bind.mp yields
    obtain ⟨denotes, rfl⟩ := Constants.yields_fieldRef.mp (yields_adapt.mp read)
    obtain ⟨rfl, rfl⟩ := yields_pure.mp rest
    exact ⟨.putStatic denotes, rfl, fun faithful => faithful.withNote denotes⟩
  · obtain ⟨⟨target, onInterface⟩, _, read, rest⟩ := yields_bind.mp yields
    obtain ⟨denotes, rfl⟩ := Constants.yields_methodRef.mp (yields_adapt.mp read)
    obtain ⟨rfl, rfl⟩ := yields_pure.mp rest
    exact ⟨.invokeStatic denotes, rfl, fun faithful => faithful.withNote denotes⟩
  · obtain ⟨_, _, read, rest⟩ := yields_bind.mp yields
    obtain ⟨denotes, rfl⟩ := Constants.yields_classRef.mp (yields_adapt.mp read)
    obtain ⟨rfl, rfl⟩ := yields_pure.mp rest
    exact ⟨.newArray denotes, rfl, fun faithful => faithful.withNote denotes⟩

/-- A code that stands for something is lifted to it. -/
theorem Lifts.yields {constants : Constants} (lifts : Lifts constants.pool code instruction) :
    ∃ after, Yields code.lift constants instruction after ∧ after.pool = constants.pool := by
  cases lifts with
  | fixed always _ => exact ⟨_, always constants, rfl⟩
  | @load _ number key _ loads denotes value =>
    refine ⟨constants.withNote key number, ?_, rfl⟩
    rw [lift_of_loads loads, yields_adapt, yields_liftLoad]
    exact .inl ⟨_, denotes, value, rfl⟩
  | carried loads held other =>
    refine ⟨constants, ?_, rfl⟩
    rw [lift_of_loads loads, yields_adapt, yields_liftLoad]
    exact .inr ⟨_, held, other, rfl, rfl⟩
  | @getStatic number field denotes =>
    refine ⟨constants.withNote (.field field) number, ?_, rfl⟩
    exact yields_bind.mpr ⟨_, _, yields_adapt.mpr (Constants.yields_fieldRef.mpr ⟨denotes, rfl⟩),
      yields_pure.mpr ⟨rfl, rfl⟩⟩
  | @putStatic number field denotes =>
    refine ⟨constants.withNote (.field field) number, ?_, rfl⟩
    exact yields_bind.mpr ⟨_, _, yields_adapt.mpr (Constants.yields_fieldRef.mpr ⟨denotes, rfl⟩),
      yields_pure.mpr ⟨rfl, rfl⟩⟩
  | @invokeStatic number target onInterface denotes =>
    refine ⟨constants.withNote (.ofMethod target onInterface) number, ?_, rfl⟩
    exact yields_bind.mpr ⟨_, _, yields_adapt.mpr (Constants.yields_methodRef.mpr ⟨denotes, rfl⟩),
      yields_pure.mpr ⟨rfl, rfl⟩⟩
  | @newArray number element denotes =>
    refine ⟨constants.withNote (.classRef element) number, ?_, rfl⟩
    exact yields_bind.mpr ⟨_, _, yields_adapt.mpr (Constants.yields_classRef.mpr ⟨denotes, rfl⟩),
      yields_pure.mpr ⟨rfl, rfl⟩⟩

theorem Lifts.keeps (lifts : Lifts pool code instruction) : code.Keeps instruction := by
  cases lifts with
  | fixed always keeps => exact keeps
  | load loads denotes value =>
    rename_i key
    cases key <;> cases value <;> trivial
  | carried loads held other => exact rfl
  | getStatic denotes => trivial
  | putStatic denotes => trivial
  | invokeStatic denotes => trivial
  | newArray denotes => trivial

/-! ### Targets -/

/-- A wide operand that leads elsewhere. -/
def moveOperand (place : Nat → Nat) (operand : Int32) : Int32 :=
  Int32.ofNat (place operand.toInt.toNat)

/-- The instruction with every code position among its operands moved. -/
def mapTargets (place : Nat → Nat) : Bytecode → Bytecode
  | .branch op target => .branch op (place target.toNat).toUInt16
  | .branchWide op target => .branchWide op (moveOperand place target)
  | .tableswitch fallback low high targets =>
    .tableswitch (moveOperand place fallback) low high (targets.map (moveOperand place))
  | .lookupswitch fallback cases =>
    .lookupswitch (moveOperand place fallback)
      (cases.map fun entry => (entry.1, moveOperand place entry.2))
  | other => other

variable {place : Nat → Nat} {operand : Int32} {operands : List Int32}

theorem position_eq_ok {target : Nat} :
    position operand = .ok target ↔ 0 ≤ operand ∧ target = operand.toInt.toNat := by
  unfold position
  split
  · rename_i negative
    simp only [reduceCtorEq, false_iff, not_and]
    intro nonnegative
    exact absurd negative (Int32.not_lt.mpr nonnegative)
  · rename_i nonnegative
    simp [Int32.not_lt.mp nonnegative, eq_comm]

theorem placeWide_place {rest : List Nat} (nonnegative : 0 ≤ operand)
    (small : place operand.toInt.toNat < 0x10000) :
    placeWide operand (place operand.toInt.toNat :: rest) = .ok (moveOperand place operand, rest) := by
  have fits : place operand.toInt.toNat < 0x80000000 := by omega
  rw [placeWide, position_eq_ok.mpr ⟨nonnegative, rfl⟩]
  exact if_pos fits

theorem placeEach_place (nonnegative : ∀ operand ∈ operands, 0 ≤ operand)
    (small : ∀ operand ∈ operands, place operand.toInt.toNat < 0x10000) :
    placeEach operands (operands.map fun operand => place operand.toInt.toNat) =
      .ok (operands.map (moveOperand place)) := by
  induction operands with
  | nil => rfl
  | cons operand rest ih =>
    have here := fun behind => @placeWide_place place operand behind
      (nonnegative operand List.mem_cons_self) (small operand List.mem_cons_self)
    have tail := ih (fun other member => nonnegative other (List.mem_cons_of_mem _ member))
      (fun other member => small other (List.mem_cons_of_mem _ member))
    simp only [List.map_cons, placeEach, here, tail, bind, Except.bind]
    rfl

theorem mapM_position_eq_ok {targets : List Nat} :
    operands.mapM position = .ok targets ↔
      (∀ operand ∈ operands, 0 ≤ operand) ∧ targets = operands.map (·.toInt.toNat) := by
  induction operands generalizing targets with
  | nil => simp [pure, Except.pure, eq_comm]
  | cons operand rest ih =>
    simp only [List.mapM_cons, bind_eq_ok, position_eq_ok, ih, List.mem_cons, List.map_cons,
      forall_eq_or_imp]
    constructor
    · rintro ⟨_, ⟨here, rfl⟩, _, ⟨others, rfl⟩, same⟩
      cases same
      exact ⟨⟨here, others⟩, rfl⟩
    · rintro ⟨⟨here, others⟩, rfl⟩
      exact ⟨_, ⟨here, rfl⟩, _, ⟨others, rfl⟩, rfl⟩

theorem toNat_moveOperand (small : place operand.toInt.toNat < 0x10000) :
    0 ≤ moveOperand place operand ∧
      (moveOperand place operand).toInt.toNat = place operand.toInt.toNat := by
  have value : (moveOperand place operand).toInt = place operand.toInt.toNat := by
    rw [moveOperand, Int32.toInt_ofNat_of_lt (by omega)]
  refine ⟨?_, by rw [value, Int.toNat_natCast]⟩
  rw [Int32.le_iff_toInt_le, value]
  exact Int.natCast_nonneg _

/-- The positions of an instruction with wide operands. -/
theorem targets?_of_wide {targets : List Nat} (found : code.targets? = .ok (some targets))
    (wide : code.targets? = (do return some (← code.wideTargets.mapM position))) :
    (∀ operand ∈ code.wideTargets, 0 ≤ operand) ∧
      targets = code.wideTargets.map (·.toInt.toNat) := by
  rw [wide, bind_eq_ok] at found
  obtain ⟨_, mapped, same⟩ := found
  cases same
  exact mapM_position_eq_ok.mp mapped

theorem moveOperand_positions (small : ∀ operand ∈ operands, place operand.toInt.toNat < 0x10000) :
    (operands.map (moveOperand place)).mapM position =
      .ok (operands.map fun operand => place operand.toInt.toNat) := by
  rw [mapM_position_eq_ok]
  constructor
  · intro moved member
    obtain ⟨operand, inside, rfl⟩ := List.mem_map.mp member
    exact (toNat_moveOperand (small operand inside)).1
  · rw [List.map_map]
    apply List.map_congr_left
    intro operand inside
    exact (toNat_moveOperand (small operand inside)).2.symm

/-- What moving does to an instruction with wide operands. -/
theorem targets?_mapTargets {targets : List Nat}
    (wide : (code.mapTargets place).targets? =
      (do return some (← (code.mapTargets place).wideTargets.mapM position)))
    (moved : (code.mapTargets place).wideTargets = code.wideTargets.map (moveOperand place))
    (targets_eq : targets = code.wideTargets.map (·.toInt.toNat))
    (small : ∀ target ∈ targets, place target < 0x10000) :
    (code.mapTargets place).targets? = .ok (some (targets.map place)) := by
  subst targets_eq
  have fits : ∀ operand ∈ code.wideTargets, place operand.toInt.toNat < 0x10000 :=
    fun operand inside => small _ (List.mem_map_of_mem inside)
  rw [wide, moved, moveOperand_positions fits, List.map_map]
  rfl

/-- Positions given in operand order end up in their operands. -/
theorem withTargets_place {targets : List Nat} (found : code.targets? = .ok (some targets))
    (small : ∀ target ∈ targets, place target < 0x10000) :
    code.withTargets (targets.map place) = .ok (code.mapTargets place) ∧
      (code.mapTargets place).targets? = .ok (some (targets.map place)) := by
  cases code with
  | branch op target =>
    cases found
    have fits := small target.toNat List.mem_cons_self
    have kept : (place target.toNat).toUInt16.toNat = place target.toNat := by
      simpa [Nat.toUInt16_eq] using fits
    refine ⟨?_, ?_⟩
    · simp only [withTargets, List.map_cons, List.map_nil, placeShort, if_pos fits, mapTargets]
      rfl
    · simp only [mapTargets, targets?, kept, List.map_cons, List.map_nil]
  | branchWide op target =>
    obtain ⟨nonnegative, same⟩ := targets?_of_wide found rfl
    refine ⟨?_, targets?_mapTargets rfl rfl same small⟩
    subst same
    have here := @placeWide_place place target [] (nonnegative _ List.mem_cons_self)
      (small _ List.mem_cons_self)
    simp only [withTargets, wideTargets, List.map_cons, List.map_nil, here, mapTargets]
    rfl
  | tableswitch fallback low high operands =>
    obtain ⟨nonnegative, same⟩ := targets?_of_wide found rfl
    refine ⟨?_, targets?_mapTargets rfl rfl same small⟩
    subst same
    simp only [wideTargets, List.map_cons, List.forall_mem_cons] at nonnegative small
    have here := fun rest => @placeWide_place place fallback rest nonnegative.1 small.1
    have others := placeEach_place nonnegative.2
      fun operand inside => small.2 _ (List.mem_map_of_mem inside)
    simp only [withTargets, wideTargets, List.map_cons, List.map_map, Function.comp_def, here,
      others, mapTargets, bind, Except.bind]
    rfl
  | lookupswitch fallback cases =>
    obtain ⟨nonnegative, same⟩ := targets?_of_wide found rfl
    refine ⟨?_, targets?_mapTargets rfl ?_ same small⟩
    · subst same
      simp only [wideTargets, List.map_cons, List.forall_mem_cons] at nonnegative small
      have here := fun rest => @placeWide_place place fallback rest nonnegative.1 small.1
      have others := placeEach_place nonnegative.2
        fun operand inside => small.2 _ (List.mem_map_of_mem inside)
      simp only [List.map_map, Function.comp_def] at others
      simp only [withTargets, wideTargets, List.map_cons, List.map_map, Function.comp_def, here,
        others, mapTargets, bind, Except.bind]
      rw [List.zip_map']
      rfl
    · simp [mapTargets, wideTargets, Function.comp_def]
  | _ => cases found

/-- Branches and switches are carried along whatever the pool holds. -/
theorem lift_of_targets? {targets : List Nat} (found : code.targets? = .ok (some targets))
    (constants : Constants) : Yields code.lift constants (.jump code targets) constants := by
  have other : code.liftOther = .ok (.jump code targets) := by
    rw [liftOther, found]
    rfl
  have lifted : code.lift = liftM code.liftOther := by
    cases code <;> first | rfl | cases found
  rw [lifted, yields_liftM]
  exact ⟨other, rfl⟩

end Bytecode

/-! ### Lowering -/

namespace Instruction

variable {pool later : ConstantPool} {place : Nat → Nat} {instruction : Instruction}

/-- The instruction with every code position moved. -/
def relocated (place : Nat → Nat) : Instruction → Instruction
  | .jump code targets => .jump (code.mapTargets place) (targets.map place)
  | other => other

/-- The positions that an instruction may go to. -/
def targets : Instruction → List Nat
  | .jump _ targets => targets
  | _ => []

/-- Code that is carried along unread stands for the instruction that carries
it. -/
def Carries (pool : ConstantPool) : Instruction → Prop
  | .plain code => code.Lifts pool (.plain code)
  | .jump code targets => code.targets? = .ok (some targets)
  | _ => True

theorem carries_of_lifts {code : Bytecode} (lifts : code.Lifts pool instruction) :
    instruction.Carries pool := by
  have keeps := lifts.keeps
  cases instruction with
  | plain carried =>
    cases keeps
    exact lifts
  | jump carried targets =>
    obtain ⟨rfl, found⟩ := keeps
    exact found
  | _ => trivial

theorem carries_of_constant (constant : StaticTable.isConstant instruction = true) :
    instruction.Carries pool := by
  cases instruction <;> trivial

theorem Carries.mono (carries : instruction.Carries pool) (grows : pool.Grows later) :
    instruction.Carries later := by
  cases instruction with
  | plain code => exact Bytecode.Lifts.mono carries grows
  | jump code targets => exact carries
  | _ => trivial

theorem loads?_loadConstant (number : UInt16) : (loadConstant number).loads? = some number := by
  unfold loadConstant
  split
  · rename_i small
    simp only [Bytecode.loads?, Option.some.injEq]
    rw [← UInt16.toNat_inj]
    simpa using small
  · rfl

private theorem toInt32_toInt8 {value : Int32} (low : -128 ≤ value) (high : value ≤ 127) :
    value.toInt8.toInt32 = value := by
  have above : -128 ≤ value.toInt := Int32.le_iff_toInt_le.mp low
  have below : value.toInt ≤ 127 := Int32.le_iff_toInt_le.mp high
  rw [← Int32.toInt_inj, Int8.toInt_toInt32, Int32.toInt_toInt8]
  exact Int.bmod_eq_of_le (by omega) (by omega)

private theorem toInt32_toInt16 {value : Int32} (low : -32768 ≤ value) (high : value ≤ 32767) :
    value.toInt16.toInt32 = value := by
  have above : -32768 ≤ value.toInt := Int32.le_iff_toInt_le.mp low
  have below : value.toInt ≤ 32767 := Int32.le_iff_toInt_le.mp high
  rw [← Int32.toInt_inj, Int16.toInt_toInt32, Int32.toInt_toInt16]
  exact Int.bmod_eq_of_le (by omega) (by omega)

/-- The constants have grown faithfully, and the code stands for the instruction
from then on. -/
def Supplied (before : Constants) (code : Bytecode) (instruction : Instruction)
    (after : Constants) : Prop :=
  after.Faithful ∧ before.pool.Grows after.pool ∧ code.Lifts after.pool instruction

section Supplied

variable {before after : Constants} {code : Bytecode} {key : ConstantKey} {number : UInt16}

theorem supplied_fixed (faithful : before.Faithful)
    (always : ∀ constants, Yields code.lift constants instruction constants)
    (keeps : code.Keeps instruction) : Supplied before code instruction before :=
  ⟨faithful, .refl _, .fixed always keeps⟩

theorem supplied_intern (faithful : before.Faithful)
    (yields : Yields (Constants.intern key) before number after)
    (lifts : after.pool.Denotes number key → code.Lifts after.pool instruction) :
    Supplied before code instruction after := by
  obtain ⟨kept, grows, denotes⟩ := Constants.supplies_intern key _ _ _ faithful yields
  exact ⟨kept, grows, lifts denotes⟩

theorem supplied_lowerInt {value : Int32} (faithful : before.Faithful)
    (yields : Yields (lowerInt value) before code after) :
    Supplied before code (.intConst value) after := by
  unfold lowerInt at yields
  iterate 7
    split at yields
    · rename_i same
      subst same
      obtain ⟨rfl, rfl⟩ := yields_pure.mp yields
      exact supplied_fixed faithful (fun _ => rfl) trivial
  split at yields
  · rename_i small
    obtain ⟨rfl, rfl⟩ := yields_pure.mp yields
    have kept := toInt32_toInt8 small.1 small.2
    exact supplied_fixed faithful (fun _ => yields_pure.mpr ⟨by rw [kept], rfl⟩) trivial
  split at yields
  · rename_i medium
    obtain ⟨rfl, rfl⟩ := yields_pure.mp yields
    have kept := toInt32_toInt16 medium.1 medium.2
    exact supplied_fixed faithful (fun _ => yields_pure.mpr ⟨by rw [kept], rfl⟩) trivial
  · obtain ⟨number, _, interned, rest⟩ := yields_bind.mp yields
    obtain ⟨rfl, rfl⟩ := yields_pure.mp rest
    exact supplied_intern faithful interned
      fun denotes => .load (loads?_loadConstant number) denotes rfl

theorem supplied_lowerLong {value : Int64} (faithful : before.Faithful)
    (yields : Yields (lowerLong value) before code after) :
    Supplied before code (.longConst value) after := by
  unfold lowerLong at yields
  iterate 2
    split at yields
    · rename_i same
      subst same
      obtain ⟨rfl, rfl⟩ := yields_pure.mp yields
      exact supplied_fixed faithful (fun _ => rfl) trivial
  · obtain ⟨number, _, interned, rest⟩ := yields_bind.mp yields
    obtain ⟨rfl, rfl⟩ := yields_pure.mp rest
    exact supplied_intern faithful interned fun denotes => .load rfl denotes rfl

/-- The code of an instruction that is no jump stands for it. -/
theorem supplied_lower (faithful : before.Faithful) (carries : instruction.Carries before.pool)
    (yields : Yields instruction.lower before code after) :
    Supplied before code instruction after := by
  -- an instruction with code of its own, whatever the pool holds
  have constant {fixed : Bytecode}
      (yields : Yields (pure fixed : ConstantsM CodeError Bytecode) before code after)
      (always : ∀ constants, Yields fixed.lift constants instruction constants)
      (keeps : fixed.Keeps instruction) : Supplied before code instruction after := by
    obtain ⟨rfl, rfl⟩ := yields_pure.mp yields
    exact supplied_fixed faithful always keeps
  -- an instruction that names an entry of the pool
  have interning {key : ConstantKey} {build : UInt16 → Bytecode}
      (yields : Yields (do return build (← (Constants.intern key).adapt CodeError.constant)) before
        code after)
      (lifts : ∀ number, after.pool.Denotes number key →
        (build number).Lifts after.pool instruction) : Supplied before code instruction after := by
    obtain ⟨number, _, interned, rest⟩ := yields_bind.mp yields
    obtain ⟨rfl, rfl⟩ := yields_pure.mp rest
    exact supplied_intern faithful (yields_adapt.mp interned) (lifts number)
  cases instruction with
  | intConst value => exact supplied_lowerInt faithful (yields_adapt.mp yields)
  | longConst value => exact supplied_lowerLong faithful (yields_adapt.mp yields)
  | stringConst value =>
    simp only [lower] at yields
    split at yields
    · rename_i text read
      have spelled := UnitString.ofText_of_toText? read
      exact interning yields fun number denotes =>
        .load (loads?_loadConstant number) denotes (by rw [Bytecode.loadOf?, spelled])
    · exact absurd yields yields_throw
  | nullConst => exact constant yields (fun _ => rfl) trivial
  | bitwise width op =>
    cases width <;> cases op <;> exact constant yields (fun _ => rfl) trivial
  | getStatic field => exact interning yields fun _ denotes => .getStatic denotes
  | putStatic field => exact interning yields fun _ denotes => .putStatic denotes
  | newArray kind =>
    cases kind with
    | int => exact constant yields (fun _ => rfl) trivial
    | long => exact constant yields (fun _ => rfl) trivial
    | reference element => exact interning yields fun _ denotes => .newArray denotes
  | arrayLoad kind => cases kind <;> exact constant yields (fun _ => rfl) trivial
  | arrayStore kind => cases kind <;> exact constant yields (fun _ => rfl) trivial
  | invokeStatic target onInterface =>
    exact interning yields fun _ denotes => .invokeStatic denotes
  | plain carried =>
    obtain ⟨rfl, rfl⟩ := yields_pure.mp yields
    exact ⟨faithful, .refl _, carries⟩
  | jump carried targets => exact absurd yields yields_throw

/-- The code of an instruction stands for it, moved along with the layout. -/
theorem supplied_lowerIn (faithful : before.Faithful) (carries : instruction.Carries before.pool)
    (small : ∀ target ∈ instruction.targets, place target < 0x10000)
    (yields : Yields (instruction.lowerIn place) before code after) :
    Supplied before code (instruction.relocated place) after := by
  cases instruction with
  | jump carried targets =>
    obtain ⟨placed, moved⟩ := Bytecode.withTargets_place carries small
    obtain ⟨same, rfl⟩ := yields_liftM.mp yields
    rw [placed] at same
    cases same
    exact supplied_fixed faithful (Bytecode.lift_of_targets? moved) ⟨rfl, moved⟩
  | _ => exact supplied_lower faithful carries yields

end Supplied

end Instruction

end LiteralRecovery
