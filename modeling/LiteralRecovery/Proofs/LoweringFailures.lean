import LiteralRecovery.Proofs.PoolRoom
import LiteralRecovery.Proofs.RelocatedCode

/-! When a listing cannot be lowered. The references of a lifted listing are all
noted and its jumps are whole, and edits bring in nothing but constants. So of
all that could go wrong three things remain: the code is too long, a string has
no text, or a value that is not noted yet finds no room in the pool. -/
namespace LiteralRecovery

/-! ### One instruction -/

namespace Instruction

variable {instruction : Instruction} {key : ConstantKey} {place : NodeId → Nat}
variable {constants : Constants} {pool : ConstantPool}

/-- The value that the instruction needs an entry of the pool for. -/
def needed? : Instruction → Option ConstantKey
  | .intConst value => if -32768 ≤ value ∧ value ≤ 32767 then none else some (.integer value)
  | .longConst value => if value = 0 ∨ value = 1 then none else some (.long value)
  | .stringConst value => value.toText?.map .string
  | .getStatic field | .putStatic field => some (.field field)
  | .newArray (.reference element) => some (.classRef element)
  | .invokeStatic target onInterface => some (.ofMethod target onInterface)
  | _ => none

theorem run_adapt {ε ε' α : Type} (action : ConstantsM ε α) (wrap : ε → ε')
    (constants : Constants) :
    action.adapt wrap constants = ((action constants).1.mapError wrap, (action constants).2) := rfl

/-- Lowering the instruction comes down to the number of a value. -/
structure Interns (instruction : Instruction) (key : ConstantKey) : Prop where
  yields : ∀ place constants number after, Yields (Constants.intern key) constants number after →
    ∃ code, Yields (instruction.lowerIn place) constants code after
  fails : ∀ place constants error after, Constants.intern key constants = (.error error, after) →
    instruction.lowerIn place constants = (.error (.constant error), after)

theorem interns_of_run (build : UInt16 → Bytecode)
    (lowered : ∀ place constants, instruction.lowerIn place constants =
      (do return build (← Constants.intern key) : ConstantsM PoolError Bytecode).adapt
        CodeError.constant constants) : instruction.Interns key where
  yields := by
    intro place constants number after interned
    refine ⟨build number, ?_⟩
    rw [Yields, lowered]
    exact yields_adapt.mpr (yields_bind.mpr ⟨number, after, interned, yields_pure.mpr ⟨rfl, rfl⟩⟩)
  fails := by
    intro place constants error after failed
    rw [lowered, run_adapt, run_bind, failed]
    rfl

theorem interns_of_adapted (build : UInt16 → Bytecode)
    (lowered : ∀ place, instruction.lowerIn place =
      do return build (← (Constants.intern key).adapt CodeError.constant)) :
    instruction.Interns key := by
  apply interns_of_run build
  intro place constants
  rw [lowered, run_adapt, run_bind, run_bind, run_adapt]
  cases Constants.intern key constants with
  | mk outcome after => cases outcome <;> rfl

theorem lowerInt_of_large {value : Int32} (large : ¬ (-32768 ≤ value ∧ value ≤ 32767)) :
    lowerInt value = do return loadConstant (← Constants.intern (.integer value)) := by
  have other (small : Int32) (fits : -32768 ≤ small ∧ small ≤ 32767) : value ≠ small := by
    rintro rfl
    exact large fits
  have long : ¬ (-128 ≤ value ∧ value ≤ 127) := by
    rintro ⟨low, high⟩
    exact large ⟨Int32.le_trans (by decide) low, Int32.le_trans high (by decide)⟩
  rw [lowerInt, if_neg (other _ (by decide)), if_neg (other _ (by decide)),
    if_neg (other _ (by decide)), if_neg (other _ (by decide)), if_neg (other _ (by decide)),
    if_neg (other _ (by decide)), if_neg (other _ (by decide)), if_neg long, if_neg large]

/-- An instruction that needs a value is lowered by way of its number. -/
theorem interns_of_needed? (needs : instruction.needed? = some key) : instruction.Interns key := by
  cases instruction with
  | intConst value =>
    obtain ⟨large, same⟩ := Option.ite_none_left_eq_some.mp needs
    cases same
    apply interns_of_run loadConstant
    intro place constants
    show (lowerInt value).adapt CodeError.constant constants = _
    rw [lowerInt_of_large large]
  | longConst value =>
    obtain ⟨large, same⟩ := Option.ite_none_left_eq_some.mp needs
    cases same
    rw [not_or] at large
    apply interns_of_run (.pooled .ldc2W)
    intro place constants
    show (lowerLong value).adapt CodeError.constant constants = _
    rw [lowerLong, if_neg large.1, if_neg large.2]
  | stringConst value =>
    obtain ⟨text, spelled, rfl⟩ := Option.map_eq_some_iff.mp needs
    apply interns_of_adapted loadConstant
    intro place
    simp only [lowerIn, lower, spelled]
  | getStatic field =>
    cases needs
    exact interns_of_adapted (.pooled .getstatic) fun _ => rfl
  | putStatic field =>
    cases needs
    exact interns_of_adapted (.pooled .putstatic) fun _ => rfl
  | newArray kind =>
    cases kind with
    | reference element =>
      cases needs
      exact interns_of_adapted (.pooled .anewarray) fun _ => rfl
    | _ => cases needs
  | invokeStatic target onInterface =>
    cases needs
    exact interns_of_adapted (.pooled .invokestatic) fun _ => rfl
  | _ => cases needs

theorem lowerInt_of_small {value : Int32} (small : -32768 ≤ value ∧ value ≤ 32767) :
    ∃ code, lowerInt value = pure code := by
  unfold lowerInt
  rw [if_pos small]
  iterate 8
    split
    · exact ⟨_, rfl⟩
  exact ⟨_, rfl⟩

/-- An instruction that needs no value is lowered without a look at the pool,
unless it is a string that has no text. -/
theorem yields_of_not_needed (none : instruction.needed? = none)
    (carries : instruction.Carries pool) (small : ∀ target, place target < 0x10000)
    (spelled : ∀ value, instruction = .stringConst value → ¬ LoneSurrogateIn value.units) :
    ∃ code, ∀ constants, Yields (instruction.lowerIn place) constants code constants := by
  cases instruction with
  | intConst value =>
    have inside : -32768 ≤ value ∧ value ≤ 32767 := by
      by_contra outside
      rw [needed?, if_neg outside] at none
      cases none
    obtain ⟨code, same⟩ := lowerInt_of_small inside
    refine ⟨code, fun constants => ?_⟩
    show Yields ((lowerInt value).adapt CodeError.constant) constants code constants
    rw [same]
    exact yields_adapt.mpr (yields_pure.mpr ⟨rfl, rfl⟩)
  | longConst value =>
    by_cases zero : value = 0
    · exact ⟨.plain .lconst0, fun constants => by subst zero; rfl⟩
    by_cases one : value = 1
    · exact ⟨.plain .lconst1, fun constants => by subst one; rfl⟩
    · simp [needed?, zero, one] at none
  | stringConst value =>
    have unspelled : value.toText? = .none := by simpa [needed?] using none
    exact absurd (UnitString.toText?_eq_none_iff.mp unspelled) (spelled value rfl)
  | nullConst => exact ⟨_, fun _ => rfl⟩
  | bitwise width op => cases width <;> cases op <;> exact ⟨_, fun _ => rfl⟩
  | getStatic field => cases none
  | putStatic field => cases none
  | newArray kind =>
    cases kind with
    | reference element => cases none
    | _ => exact ⟨_, fun _ => rfl⟩
  | arrayLoad kind => cases kind <;> exact ⟨_, fun _ => rfl⟩
  | arrayStore kind => cases kind <;> exact ⟨_, fun _ => rfl⟩
  | invokeStatic target onInterface => cases none
  | plain code => exact ⟨code, fun _ => rfl⟩
  | jump code targets =>
    obtain ⟨placed, _⟩ := Bytecode.withTargets_place carries fun target _ => small target
    exact ⟨_, fun constants => yields_liftM.mpr ⟨placed, rfl⟩⟩

theorem lowerIn_of_lone {value : UnitString} (lone : LoneSurrogateIn value.units) :
    (Instruction.stringConst value).lowerIn place constants =
      (.error .loneSurrogate, constants) := by
  simp only [lowerIn, lower, UnitString.toText?_eq_none_iff.mpr lone]
  rfl

end Instruction

/-! ### One instruction after the other -/

namespace ValueIndex

/-- The values that instructions need and the index lacks, each where it is
needed first. -/
def missing (index : ValueIndex) (instructions : List Instruction) : List ConstantKey :=
  ((instructions.filterMap Instruction.needed?).filter (index.lookup · = none)).eraseDups

variable {index : ValueIndex} {first : Instruction} {rest instructions : List Instruction}
variable {key : ConstantKey}

theorem mem_missing : key ∈ index.missing instructions ↔
    (∃ instruction ∈ instructions, instruction.needed? = some key) ∧ index.lookup key = none := by
  simp [missing]

theorem missing_cons_of_not_needed (none : first.needed? = none) :
    index.missing (first :: rest) = index.missing rest := by
  rw [missing, List.filterMap_cons_none none, missing]

theorem missing_cons_of_known {number : UInt16} (needs : first.needed? = some key)
    (known : index.lookup key = some number) :
    index.missing (first :: rest) = index.missing rest := by
  rw [missing, List.filterMap_cons_some needs, List.filter_cons_of_neg (by simp [known]), missing]

/-- Once noted, a value is missed no more. -/
theorem missing_cons_of_unknown (number : UInt16) (needs : first.needed? = some key)
    (unknown : index.lookup key = none) :
    index.missing (first :: rest) = key :: (index.note key number).missing rest := by
  rw [missing, List.filterMap_cons_some needs, List.filter_cons_of_pos (by simp [unknown]),
    List.eraseDups_cons, missing, List.filter_filter]
  congr 2
  apply List.filter_congr
  intro other _
  rw [lookup_note]
  cases index.lookup other <;> by_cases same : other = key <;> simp [same]

end ValueIndex

/-- How it ends when instructions are lowered one after the other: all of them
are, or a string has no text, or a value gets no number. -/
inductive Ends (place : NodeId → Nat) (constants : Constants)
    (instructions : List Instruction) : Prop
  | lowered {code : List Bytecode} {after : Constants}
      (yields : Yields (instructions.mapM (·.lowerIn place)) constants code after)
      (spelled : ∀ value, .stringConst value ∈ instructions → ¬ LoneSurrogateIn value.units)
      (room : ¬ Overflows constants.pool.size
        ((constants.index.missing instructions).flatMap ConstantKey.widths))
  | lone {value : UnitString} {after : Constants}
      (fails : instructions.mapM (·.lowerIn place) constants = (.error .loneSurrogate, after))
      (member : .stringConst value ∈ instructions) (alone : LoneSurrogateIn value.units)
  | full {after : Constants}
      (fails : instructions.mapM (·.lowerIn place) constants = (.error (.constant .full), after))
      (beyond : Overflows constants.pool.size
        ((constants.index.missing instructions).flatMap ConstantKey.widths))

section Ends

variable {place : NodeId → Nat} {constants between : Constants} {first : Instruction}
variable {rest instructions : List Instruction} {pool : ConstantPool}

theorem mapM_error_of_first {error : CodeError}
    (failed : first.lowerIn place constants = (.error error, between)) :
    (first :: rest).mapM (·.lowerIn place) constants = (.error error, between) := by
  rw [List.mapM_cons, run_bind, failed]

theorem mapM_error_of_rest {error : CodeError} {code : Bytecode} {after : Constants}
    (here : Yields (first.lowerIn place) constants code between)
    (failed : rest.mapM (·.lowerIn place) between = (.error error, after)) :
    (first :: rest).mapM (·.lowerIn place) constants = (.error error, after) := by
  rw [List.mapM_cons, run_bind, here]
  dsimp only
  rw [run_bind, failed]

/-- When the first instruction is lowered, the rest decides: what it added takes
its numbers before the rest does. -/
theorem Ends.cons {code : Bytecode} (ends : Ends place between rest) (widths : List Nat)
    (here : Yields (first.lowerIn place) constants code between)
    (spelled : ∀ value, first = .stringConst value → ¬ LoneSurrogateIn value.units)
    (size : between.pool.size = numberBehind constants.pool.size widths)
    (room : ¬ Overflows constants.pool.size widths)
    (keys : (constants.index.missing (first :: rest)).flatMap ConstantKey.widths =
      widths ++ (between.index.missing rest).flatMap ConstantKey.widths) :
    Ends place constants (first :: rest) := by
  have same : Overflows constants.pool.size
      ((constants.index.missing (first :: rest)).flatMap ConstantKey.widths) ↔
        Overflows between.pool.size ((between.index.missing rest).flatMap ConstantKey.widths) := by
    rw [keys, overflows_append, or_iff_right room, size]
  cases ends with
  | @lowered others after yields spelled' room' =>
    refine .lowered (yields_mapM_cons.mpr ⟨code, between, others, here, yields, rfl⟩) ?_
      (mt same.mp room')
    intro value member
    rcases List.mem_cons.mp member with head | tail
    · exact spelled value head.symm
    · exact spelled' value tail
  | lone fails member alone =>
    exact .lone (mapM_error_of_rest here fails) (List.mem_cons_of_mem _ member) alone
  | full fails beyond => exact .full (mapM_error_of_rest here fails) (same.mpr beyond)

/-- Instructions whose jumps are whole and whose references are known end in one
of the three ways. -/
theorem ends_of_known (small : ∀ target, place target < 0x10000)
    (carries : ∀ instruction ∈ instructions, instruction.Carries pool)
    (loadable : ∀ key ∈ constants.index.missing instructions, key.isLoadable = true) :
    Ends place constants instructions := by
  induction instructions generalizing constants with
  | nil => exact .lowered (yields_mapM_nil.mpr ⟨rfl, rfl⟩) (by simp) (by simp [ValueIndex.missing])
  | cons first rest ih =>
    rw [List.forall_mem_cons] at carries
    by_cases lone : ∃ value, first = .stringConst value ∧ LoneSurrogateIn value.units
    · obtain ⟨value, rfl, alone⟩ := lone
      exact .lone (mapM_error_of_first (Instruction.lowerIn_of_lone alone)) List.mem_cons_self alone
    have spelled : ∀ value, first = .stringConst value → ¬ LoneSurrogateIn value.units :=
      fun value same alone => lone ⟨value, same, alone⟩
    cases needs : first.needed? with
    | none =>
      obtain ⟨code, yields⟩ := Instruction.yields_of_not_needed needs carries.1 small spelled
      have keys := @ValueIndex.missing_cons_of_not_needed constants.index first rest needs
      have behind := ih carries.2 (keys ▸ loadable)
      refine behind.cons [] (yields constants) spelled rfl not_overflows_nil ?_
      rw [keys, List.nil_append]
    | some key =>
      have interns := Instruction.interns_of_needed? needs
      cases noted : constants.index.lookup key with
      | some number =>
        obtain ⟨code, yields⟩ := interns.yields place _ _ _ (Constants.yields_intern_of_noted noted)
        have keys :=
          @ValueIndex.missing_cons_of_known constants.index first rest key number needs noted
        have behind := ih carries.2 (keys ▸ loadable)
        refine behind.cons [] yields spelled rfl not_overflows_nil ?_
        rw [keys, List.nil_append]
      | none =>
        -- the entries of the value come before those that the rest adds
        have keys := fun number =>
          @ValueIndex.missing_cons_of_unknown constants.index first rest key number needs noted
        have loads : key.isLoadable = true :=
          loadable key (ValueIndex.mem_missing.mpr ⟨⟨first, List.mem_cons_self, needs⟩, noted⟩)
        by_cases beyond : Overflows constants.pool.size key.widths
        · obtain ⟨after, failed⟩ := Constants.intern_full loads noted beyond
          refine .full (mapM_error_of_first (interns.fails place _ _ _ failed)) ?_
          rw [keys 0, List.flatMap_cons, overflows_append]
          exact .inl beyond
        · obtain ⟨number, between, interned, size, index⟩ :=
            Constants.intern_fits loads noted beyond
          obtain ⟨code, yields⟩ := interns.yields place _ _ _ interned
          have behind : Ends place between rest := by
            apply ih carries.2
            intro other member
            apply loadable
            rw [keys number, ← index]
            exact List.mem_cons_of_mem _ member
          refine behind.cons key.widths yields spelled size beyond ?_
          rw [keys number, List.flatMap_cons, index]

end Ends

/-! ### What lifting leaves noted -/

namespace Instruction

variable {instruction : Instruction} {key : ConstantKey} {code : Bytecode}

theorem isLoadable_of_constant (constant : StaticTable.isConstant instruction = true)
    (needs : instruction.needed? = some key) : key.isLoadable = true := by
  cases instruction with
  | intConst value =>
    obtain ⟨_, same⟩ := Option.ite_none_left_eq_some.mp needs
    cases same
    rfl
  | longConst value =>
    obtain ⟨_, same⟩ := Option.ite_none_left_eq_some.mp needs
    cases same
    rfl
  | stringConst value =>
    obtain ⟨_, _, rfl⟩ := Option.map_eq_some_iff.mp needs
    rfl
  | nullConst => cases needs
  | _ => cases constant

theorem needed?_of_liftOther (lifted : code.liftOther = .ok instruction) :
    instruction.needed? = none := by
  obtain ⟨targets?, _, rest⟩ := bind_eq_ok.mp lifted
  cases targets? <;> cases rest <;> rfl

end Instruction

/-- Whatever reference an instruction makes, the index has a number for it. -/
def Constants.Knows (constants : Constants) (instruction : Instruction) : Prop :=
  ∀ key, instruction.needed? = some key → key.isLoadable = false →
    constants.index.lookup key ≠ none

section Notes

variable {constants after later : Constants} {code : Bytecode} {instruction : Instruction}
variable {number : UInt16} {key : ConstantKey}

theorem Constants.knows_of_constant (constants : Constants)
    (constant : StaticTable.isConstant instruction = true) : constants.Knows instruction := by
  intro key needs reference
  rw [Instruction.isLoadable_of_constant constant needs] at reference
  cases reference

theorem Constants.Knows.mono (knows : constants.Knows instruction)
    (extended : constants.Extends later) : later.Knows instruction := by
  intro key needs reference
  obtain ⟨number, noted⟩ := Option.ne_none_iff_exists'.mp (knows key needs reference)
  rw [extended.notes key number noted]
  exact Option.some_ne_none number

theorem Constants.knows_withNote (needs : instruction.needed? = some key) :
    (constants.withNote key number).Knows instruction := by
  intro other needs' _
  rw [needs] at needs'
  cases needs'
  rw [withNote, ValueIndex.lookup_note]
  simp

theorem Constants.knows_of_not_needed (constants : Constants) (none : instruction.needed? = none) :
    constants.Knows instruction := by
  intro key needs
  rw [none] at needs
  cases needs

/-- A load is seen as a constant or not followed. -/
theorem knows_of_liftLoad (yields : Yields (code.liftLoad number) constants instruction after) :
    constants.Extends after ∧ after.Knows instruction := by
  rcases Bytecode.yields_liftLoad.mp yields with ⟨key, _, value, rfl⟩ | ⟨_, _, _, rfl, rfl⟩
  · refine ⟨Constants.extends_withNote _ _ _, Constants.knows_of_constant _ ?_⟩
    cases key <;> cases value <;> rfl
  · exact ⟨.refl _, Constants.knows_of_not_needed _ rfl⟩

/-- Lifting notes the reference that it reads, and forgets none. -/
theorem knows_of_lift (yields : Yields code.lift constants instruction after) :
    constants.Extends after ∧ after.Knows instruction := by
  have carried
      (yields : Yields (liftM code.liftOther : ConstantsM CodeError _) constants instruction after) :
      constants.Extends after ∧ after.Knows instruction := by
    obtain ⟨lifted, rfl⟩ := yields_liftM.mp yields
    exact ⟨.refl _, Constants.knows_of_not_needed _ (Instruction.needed?_of_liftOther lifted)⟩
  have fixed {value : Instruction} (plain : ∀ later : Constants, later.Knows value)
      (yields : Yields (pure value : ConstantsM CodeError _) constants instruction after) :
      constants.Extends after ∧ after.Knows instruction := by
    obtain ⟨rfl, rfl⟩ := yields_pure.mp yields
    exact ⟨.refl _, plain _⟩
  -- the note goes under the very value that the instruction needs again
  have noted {key : ConstantKey} (number : UInt16) (same : after = constants.withNote key number)
      (needs : instruction.needed? = some key) :
      constants.Extends after ∧ after.Knows instruction := by
    subst same
    exact ⟨Constants.extends_withNote _ _ _, Constants.knows_withNote needs⟩
  cases code with
  | plain op =>
    cases op
    all_goals
      first
      | exact carried yields
      | exact fixed (fun later => later.knows_of_constant rfl) yields
      | exact fixed (fun later => later.knows_of_not_needed rfl) yields
  | bipush value => exact fixed (fun later => later.knows_of_constant rfl) yields
  | sipush value => exact fixed (fun later => later.knows_of_constant rfl) yields
  | ldc number => exact knows_of_liftLoad (yields_adapt.mp yields)
  | pooled op number =>
    cases op with
    | ldcW => exact knows_of_liftLoad (yields_adapt.mp yields)
    | ldc2W => exact knows_of_liftLoad (yields_adapt.mp yields)
    | getstatic =>
      obtain ⟨field, _, read, rest⟩ := yields_bind.mp yields
      obtain ⟨rfl, rfl⟩ := yields_pure.mp rest
      exact noted number (Constants.yields_fieldRef.mp (yields_adapt.mp read)).2 rfl
    | putstatic =>
      obtain ⟨field, _, read, rest⟩ := yields_bind.mp yields
      obtain ⟨rfl, rfl⟩ := yields_pure.mp rest
      exact noted number (Constants.yields_fieldRef.mp (yields_adapt.mp read)).2 rfl
    | invokestatic =>
      obtain ⟨⟨target, onInterface⟩, _, read, rest⟩ := yields_bind.mp yields
      obtain ⟨rfl, rfl⟩ := yields_pure.mp rest
      exact noted number (Constants.yields_methodRef.mp (yields_adapt.mp read)).2 rfl
    | anewarray =>
      obtain ⟨element, _, read, rest⟩ := yields_bind.mp yields
      obtain ⟨rfl, rfl⟩ := yields_pure.mp rest
      exact noted number (Constants.yields_classRef.mp (yields_adapt.mp read)).2 rfl
    | _ => exact carried yields
  | newarray element =>
    cases element with
    | int => exact fixed (fun later => later.knows_of_not_needed rfl) yields
    | long => exact fixed (fun later => later.knows_of_not_needed rfl) yields
    | _ => exact carried yields
  | _ => exact carried yields

private theorem knows_of_liftFrom {code : List Bytecode} {start : Nat}
    {instructions : List Instruction}
    (yields : Yields ((code.zipIdx start).mapM fun (code, position) =>
      code.lift.adapt fun cause => (⟨position, code, cause⟩ : LiftError)) constants instructions
        after) :
    constants.Extends after ∧ ∀ instruction ∈ instructions, after.Knows instruction := by
  induction code generalizing start constants instructions with
  | nil =>
    obtain ⟨rfl, rfl⟩ := yields_mapM_nil.mp yields
    exact ⟨.refl _, by simp⟩
  | cons first rest ih =>
    rw [List.zipIdx_cons, yields_mapM_cons] at yields
    obtain ⟨instruction, between, others, here, behind, rfl⟩ := yields
    obtain ⟨early, knows⟩ := knows_of_lift (yields_adapt.mp here)
    obtain ⟨late, known⟩ := ih behind
    exact ⟨early.trans late, List.forall_mem_cons.mpr ⟨knows.mono late, known⟩⟩

/-- The references of a lifted listing are all noted, and edits bring in no new
one. -/
theorem knows_of_edits {code : List Bytecode} {list edited : Listing Instruction}
    (lifting : Yields (liftCode code) constants list after)
    (edits : Relation.ReflTransGen Listing.Edit list edited) :
    ∀ instruction ∈ edited.toList, after.Knows instruction := by
  intro instruction member
  obtain ⟨id, held⟩ := Listing.mem_toList.mp member
  rcases Listing.held_of_edits edits held with constant | kept
  · exact after.knows_of_constant constant
  · simp only [liftCode, yields_bind, yields_pure] at lifting
    obtain ⟨instructions, _, lifted, rfl, rfl⟩ := lifting
    rw [Listing.get?_ofList] at kept
    exact (knows_of_liftFrom lifted).2 instruction (List.mem_of_getElem? kept)

end Notes

/-! ### Whole listings -/

section Listings

variable {code : List Bytecode} {before lifted start after : Constants}
variable {list edited : Listing Instruction} {liftedLength : Nat}

/-- Only values that are loaded can be missing, since lifting noted the rest. -/
theorem isLoadable_of_missing (lifting : Yields (liftCode code) before list lifted)
    (edits : Relation.ReflTransGen Listing.Edit list edited) (recorded : lifted.Extends start) :
    ∀ key ∈ start.index.missing edited.toList, key.isLoadable = true := by
  intro key member
  obtain ⟨⟨instruction, live, needs⟩, unknown⟩ := ValueIndex.mem_missing.mp member
  have knows := (knows_of_edits lifting edits instruction live).mono recorded
  by_contra reference
  exact knows key needs (Bool.not_eq_true _ ▸ reference) unknown

/-- The places of a listing that is not too long fit 16 bits, and so does a
counter that has passed the last live node. -/
theorem Listing.placeOf_small (unclosed : list.Open) (short : ¬ 0x10000 ≤ list.length)
    (id : NodeId) :
    list.placeOf list.ranks list.length id < 0x10000 ∧
      (list.isLive id = true → list.placeOf list.ranks list.length id + 1 < 0x10000) := by
  rw [placeOf_eq_rank unclosed]
  have within := list.rank_le_length id
  refine ⟨by omega, fun live => ?_⟩
  obtain ⟨content, held⟩ := isLive_iff.mp live
  have below := rank_lt_length held
  omega

theorem lowerCode_of_long (long : 0x10000 ≤ list.length) :
    lowerCode list liftedLength start = (.error .tooLong, start) := by
  rw [lowerCode]
  simp only [if_pos long]
  rw [run_bind]
  rfl

theorem lowerCode_of_error {error : CodeError} (short : ¬ 0x10000 ≤ list.length)
    (failed : list.toList.mapM (·.lowerIn (list.placeOf list.ranks list.length)) start =
      (.error error, after)) :
    lowerCode list liftedLength start = (.error error, after) := by
  rw [lowerCode]
  simp only [if_neg short]
  rw [run_bind, failed]

end Listings

/-- Whatever was taken out of lifted code or replaced by constants, lowering it
fails just when more than 65535 nodes are live, or a live string holds a
surrogate without its other half, or of the values that the index lacks one
gets no number in the pool. Each of the three has an error of its own, and there
is no other. Only loaded values can be missing, and as long as the code is short
enough no place and no count of places leaves 16 bits. -/
theorem lowering_fails_iff {code : List Bytecode} {before lifted start : Constants}
    {list edited : Listing Instruction} (lifting : Yields (liftCode code) before list lifted)
    (edits : Relation.ReflTransGen Listing.Edit list edited) (recorded : lifted.Extends start)
    (liftedLength : Nat) :
    let long := 0x10000 ≤ edited.length
    let alone := ∃ value, .stringConst value ∈ edited.toList ∧ LoneSurrogateIn value.units
    let wanted := start.index.missing edited.toList
    let full := Overflows start.pool.size (wanted.flatMap ConstantKey.widths)
    let place := edited.placeOf edited.ranks edited.length
    ((∃ error after, lowerCode edited liftedLength start = (.error error, after)) ↔
      long ∨ alone ∨ full) ∧
    (∀ error after, lowerCode edited liftedLength start = (.error error, after) →
      error = .tooLong ∧ long ∨ error = .loneSurrogate ∧ alone ∨ error = .constant .full ∧ full) ∧
    (∀ key ∈ wanted, key.isLoadable = true) ∧
    (¬ long → ∀ id, place id < 0x10000 ∧ (edited.isLive id = true → place id + 1 < 0x10000)) := by
  intro long alone wanted full place
  have stems := Listing.stems_of_edits lifting edits
  have loadable := isLoadable_of_missing lifting edits recorded
  have small (short : ¬ long) := Listing.placeOf_small stems.unclosed short
  have ends (short : ¬ long) : Ends place start edited.toList :=
    ends_of_known (fun id => (small short id).1) stems.carries loadable
  have reasons : ∀ error after, lowerCode edited liftedLength start = (.error error, after) →
      error = .tooLong ∧ long ∨ error = .loneSurrogate ∧ alone ∨
        error = .constant .full ∧ full := by
    intro error after failed
    by_cases many : long
    · rw [lowerCode_of_long many] at failed
      cases failed
      exact .inl ⟨rfl, many⟩
    cases ends many with
    | @lowered lowering last yields _ _ =>
      have success : Yields (lowerCode edited liftedLength) start ⟨lowering, _⟩ last :=
        yields_lowerCode.mpr ⟨Nat.lt_of_not_le many, yields, rfl⟩
      rw [Yields, failed] at success
      cases success
    | @lone value _ fails member lone =>
      rw [lowerCode_of_error many fails] at failed
      cases failed
      exact .inr (.inl ⟨rfl, value, member, lone⟩)
    | full fails beyond =>
      rw [lowerCode_of_error many fails] at failed
      cases failed
      exact .inr (.inr ⟨rfl, beyond⟩)
  refine ⟨⟨?_, fun reason => ?_⟩, reasons, loadable, small⟩
  · rintro ⟨error, after, failed⟩
    exact (reasons error after failed).imp And.right (Or.imp And.right And.right)
  · by_cases many : long
    · exact ⟨_, _, lowerCode_of_long many⟩
    cases ends many with
    | lowered _ spelled room =>
      rcases reason with many' | ⟨value, member, lone⟩ | beyond
      · exact absurd many' many
      · exact absurd lone (spelled value member)
      · exact absurd beyond room
    | lone fails _ _ => exact ⟨_, _, lowerCode_of_error many fails⟩
    | full fails _ => exact ⟨_, _, lowerCode_of_error many fails⟩

section Crowded

/-- With one number left in the pool, a new text finds no room for both of its
entries, while a long still does with the number it begins at. -/
theorem switching_crowded : ∃ list lifted start,
    Yields (liftCode switching) (.ofPool .empty) list lifted ∧ lifted.Extends start ∧
    start.pool.size = 0xFFFF ∧
    (∃ error after,
      lowerCode (list.replace 1 (.stringConst ⟨[0x61]⟩)) 6 start = (.error error, after)) ∧
    ¬ ∃ error after, lowerCode (list.replace 1 (.longConst 5)) 6 start = (.error error, after) := by
  obtain ⟨list, lifting, text, number, short, plain⟩ : ∃ list,
      Yields (liftCode switching) (.ofPool .empty) list (.ofPool .empty) ∧
      ValueIndex.empty.missing (list.replace 1 (.stringConst ⟨[0x61]⟩)).toList =
        [.string (String.ofList ['a'])] ∧
      ValueIndex.empty.missing (list.replace 1 (.longConst 5)).toList = [.long 5] ∧
      (list.replace 1 (.longConst 5)).length = 6 ∧
      ∀ instruction ∈ (list.replace 1 (.longConst 5)).toList, instruction.string? = none :=
    ⟨_, rfl, rfl, rfl, rfl, by decide⟩
  obtain ⟨start, recorded, size, index⟩ : ∃ start, (Constants.ofPool .empty).Extends start ∧
      start.pool.size = 0xFFFF ∧ start.index = .empty := by
    refine ⟨⟨⟨Array.replicate 0xFFFF none⟩, .empty⟩, ⟨?_, fun _ _ noted => noted⟩,
      Array.size_replicate, rfl⟩
    intro number constant held
    cases place : number.toNat <;>
      simp [Constants.ofPool, ConstantPool.empty, ConstantPool.get?, place] at held
  have edits {value : Instruction} (constant : StaticTable.isConstant value = true) :
      Relation.ReflTransGen Listing.Edit list (list.replace 1 value) :=
    .single (.replace 1 constant)
  refine ⟨list, _, start, lifting, recorded, size, ?_, ?_⟩
  · apply (lowering_fails_iff lifting (edits rfl) recorded 6).1.mpr
    right; right
    rw [index, text, size]
    simp [ConstantKey.widths]
  · rw [(lowering_fails_iff lifting (edits rfl) recorded 6).1, index, number, size, short]
    rintro (long | ⟨value, member, _⟩ | full)
    · omega
    · cases plain _ member
    · simp [ConstantKey.widths] at full

end Crowded

end LiteralRecovery
