import LiteralRecovery.Constant.Index

/-! What the numbers of a constant pool stand for. A pool only grows, so a number
that stands for a value keeps standing for it, and every number in the value
index stands for the value it is noted under. Interning keeps it that way, and
its answer stands for the value that was asked for. -/
namespace LiteralRecovery

/-! ### Actions that succeed -/

section Actions

variable {σ ε ε' α β : Type} {before after : σ}

/-- The action succeeds, with a result and the state it leaves. -/
def Yields (action : ExceptT ε (StateM σ) α) (before : σ) (result : α) (after : σ) : Prop :=
  action before = (.ok result, after)

@[simp] theorem yields_pure {value result : α} :
    Yields (pure value : ExceptT ε (StateM σ) α) before result after ↔
      result = value ∧ after = before := by
  constructor
  · intro same
    cases same
    exact ⟨rfl, rfl⟩
  · rintro ⟨rfl, rfl⟩
    rfl

theorem run_bind (action : ExceptT ε (StateM σ) α) (next : α → ExceptT ε (StateM σ) β) :
    (action >>= next) before = match action before with
      | (.ok value, between) => next value between
      | (.error error, between) => (.error error, between) := by
  simp only [bind, ExceptT.bind, ExceptT.mk, StateT.bind]
  cases action before with
  | mk outcome between => cases outcome <;> rfl

theorem run_get_bind (next : σ → ExceptT ε (StateM σ) α) :
    (do next (← get)) before = next before before := by
  rw [run_bind]
  rfl

@[simp] theorem yields_bind {action : ExceptT ε (StateM σ) α} {next : α → ExceptT ε (StateM σ) β}
    {result : β} :
    Yields (action >>= next) before result after ↔
      ∃ value between, Yields action before value between ∧
        Yields (next value) between result after := by
  constructor
  · intro yields
    rw [Yields, run_bind] at yields
    split at yields
    · rename_i value between first
      exact ⟨value, between, first, yields⟩
    · cases yields
  · rintro ⟨value, between, first, second⟩
    rw [Yields, run_bind, first]
    exact second

theorem bind_eq_ok {outcome : Except ε α} {next : α → Except ε β} {result : β} :
    (outcome >>= next) = .ok result ↔ ∃ value, outcome = .ok value ∧ next value = .ok result := by
  cases outcome <;> simp [bind, Except.bind]

@[simp] theorem yields_throw {error : ε} {result : α} :
    ¬ Yields (throw error : ExceptT ε (StateM σ) α) before result after := by
  intro same
  cases same

@[simp] theorem yields_adapt {action : ExceptT ε (StateM σ) α} {wrap : ε → ε'} {result : α} :
    Yields (action.adapt wrap) before result after ↔ Yields action before result after := by
  have run : action.adapt wrap before =
      ((action before).1.mapError wrap, (action before).2) := rfl
  rw [Yields, Yields, run]
  cases action before with
  | mk outcome between =>
    cases outcome with
    | error error => constructor <;> intro same <;> cases same
    | ok value =>
      constructor <;> intro same <;> cases same <;> rfl

@[simp] theorem yields_get {result : σ} :
    Yields (get : ExceptT ε (StateM σ) σ) before result after ↔
      result = before ∧ after = before := by
  constructor
  · intro same
    cases same
    exact ⟨rfl, rfl⟩
  · rintro ⟨rfl, rfl⟩
    rfl

@[simp] theorem yields_modify {change : σ → σ} {result : PUnit} :
    Yields (modify change : ExceptT ε (StateM σ) PUnit) before result after ↔
      after = change before := by
  constructor
  · intro same
    cases same
    rfl
  · rintro rfl
    rfl

@[simp] theorem yields_liftM {outcome : Except ε α} {result : α} :
    Yields (liftM outcome : ExceptT ε (StateM σ) α) before result after ↔
      outcome = .ok result ∧ after = before := by
  cases outcome with
  | error error =>
    constructor
    · intro same
      cases same
    · rintro ⟨same, _⟩
      cases same
  | ok value =>
    constructor
    · intro same
      cases same
      exact ⟨rfl, rfl⟩
    · rintro ⟨same, rfl⟩
      cases same
      rfl

theorem yields_lift {action : StateM σ α} {result : α} :
    Yields (liftM action : ExceptT ε (StateM σ) α) before result after ↔
      action before = (result, after) := by
  constructor
  · intro same
    cases same
    rfl
  · intro same
    exact congrArg (fun (value, later) => (Except.ok value, later)) same

theorem Yields.unique {action : ExceptT ε (StateM σ) α} {first second : α} {after' : σ}
    (yields : Yields action before first after) (yields' : Yields action before second after') :
    first = second ∧ after = after' := by
  rw [Yields, yields] at yields'
  cases yields'
  exact ⟨rfl, rfl⟩

end Actions

/-! ### What a number stands for -/

/-- Whether the passes see a load of the entry as a constant. -/
def Constant.isLoadable : Constant → Bool
  | .integer _ | .long _ | .string _ => true
  | _ => false

@[inherit_doc Constant.isLoadable]
def ConstantKey.isLoadable : ConstantKey → Bool
  | .integer _ | .long _ | .string _ => true
  | _ => false

/-- The value of a method entry. -/
def ConstantKey.ofMethod (member : MemberRef) (onInterface : Bool) : ConstantKey :=
  if onInterface then .interfaceMethod member else .method member

namespace ConstantPool

variable {pool later last : ConstantPool} {number : UInt16} {key : ConstantKey}

/-- The class entry at `number` has the given name. -/
def Names (pool : ConstantPool) (number : UInt16) (name : String) : Prop :=
  ∃ text, pool.get? number = some (.classRef text) ∧ pool.get? text = some (.utf8 name)

/-- The two halves of a reference entry describe the member. -/
def Describes (pool : ConstantPool) (owner nameAndType : UInt16) (member : MemberRef) : Prop :=
  pool.Names owner member.owner ∧ ∃ name descriptor,
    pool.get? nameAndType = some (.nameAndType name descriptor) ∧
      pool.get? name = some (.utf8 member.name) ∧
      pool.get? descriptor = some (.utf8 member.descriptor)

/-- The value that the entry at a number stands for, through the numbers of
names and texts in it. -/
inductive Denotes (pool : ConstantPool) (number : UInt16) : ConstantKey → Prop where
  | integer {value : Int32} (held : pool.get? number = some (.integer value)) :
      Denotes pool number (.integer value)
  | long {value : Int64} (held : pool.get? number = some (.long value)) :
      Denotes pool number (.long value)
  | string {text : UInt16} {value : String} (held : pool.get? number = some (.string text))
      (spelled : pool.get? text = some (.utf8 value)) : Denotes pool number (.string value)
  | classRef {name : String} (named : pool.Names number name) : Denotes pool number (.classRef name)
  | field {owner nameAndType : UInt16} {member : MemberRef}
      (held : pool.get? number = some (.fieldRef owner nameAndType))
      (described : pool.Describes owner nameAndType member) : Denotes pool number (.field member)
  | method {owner nameAndType : UInt16} {member : MemberRef}
      (held : pool.get? number = some (.methodRef owner nameAndType))
      (described : pool.Describes owner nameAndType member) : Denotes pool number (.method member)
  | interfaceMethod {owner nameAndType : UInt16} {member : MemberRef}
      (held : pool.get? number = some (.interfaceMethodRef owner nameAndType))
      (described : pool.Describes owner nameAndType member) :
      Denotes pool number (.interfaceMethod member)

theorem utf8_eq_ok {text : String} :
    pool.utf8 number = .ok text ↔ pool.get? number = some (.utf8 text) := by
  unfold utf8
  split <;> simp_all

theorem entry_eq_ok {constant : Constant} :
    pool.entry number = .ok constant ↔ pool.get? number = some constant := by
  unfold entry
  split <;> simp_all

theorem className_eq_ok {name : String} :
    pool.className number = .ok name ↔ pool.Names number name := by
  simp only [className, bind_eq_ok, entry_eq_ok]
  constructor
  · rintro ⟨constant, held, read⟩
    split at read
    · exact ⟨_, held, utf8_eq_ok.mp read⟩
    · cases read
  · rintro ⟨text, held, spelled⟩
    exact ⟨_, held, utf8_eq_ok.mpr spelled⟩

theorem memberRef_eq_ok {owner nameAndType : UInt16} {member : MemberRef} :
    Constants.memberRef owner nameAndType pool = .ok member ↔
      pool.Describes owner nameAndType member := by
  simp only [Constants.memberRef, bind_eq_ok, entry_eq_ok, className_eq_ok]
  constructor
  · rintro ⟨ownerName, named, constant, held, read⟩
    split at read
    · rename_i name descriptor
      obtain ⟨spelled, first, typed, second, same⟩ := by
        simpa only [bind_eq_ok, utf8_eq_ok] using read
      cases same
      exact ⟨named, name, descriptor, held, first, second⟩
    · cases read
  · rintro ⟨named, name, descriptor, held, spelled, typed⟩
    refine ⟨_, named, _, held, ?_⟩
    simp only [bind_eq_ok, utf8_eq_ok]
    exact ⟨_, spelled, _, typed, rfl⟩

/-- The pool has all entries it had, where they were. -/
def Grows (pool later : ConstantPool) : Prop :=
  ∀ number constant, pool.get? number = some constant → later.get? number = some constant

theorem Grows.refl (pool : ConstantPool) : Grows pool pool := fun _ _ held => held

theorem Grows.trans (first : Grows pool later) (second : Grows later last) : Grows pool last :=
  fun number constant held => second number constant (first number constant held)

theorem Names.mono {name : String} (named : pool.Names number name) (grows : Grows pool later) :
    later.Names number name := by
  obtain ⟨text, held, spelled⟩ := named
  exact ⟨text, grows _ _ held, grows _ _ spelled⟩

theorem Describes.mono {owner nameAndType : UInt16} {member : MemberRef}
    (described : pool.Describes owner nameAndType member) (grows : Grows pool later) :
    later.Describes owner nameAndType member := by
  obtain ⟨named, name, descriptor, held, spelled, typed⟩ := described
  exact ⟨named.mono grows, name, descriptor, grows _ _ held, grows _ _ spelled, grows _ _ typed⟩

/-- What a number stands for it stands for ever after. -/
theorem Denotes.mono (denotes : pool.Denotes number key) (grows : Grows pool later) :
    later.Denotes number key := by
  cases denotes with
  | integer held => exact .integer (grows _ _ held)
  | long held => exact .long (grows _ _ held)
  | string held spelled => exact .string (grows _ _ held) (grows _ _ spelled)
  | classRef named => exact .classRef (named.mono grows)
  | field held described => exact .field (grows _ _ held) (described.mono grows)
  | method held described => exact .method (grows _ _ held) (described.mono grows)
  | interfaceMethod held described =>
    exact .interfaceMethod (grows _ _ held) (described.mono grows)

private theorem getElem?_place {constant : Constant} {index : Nat}
    (inside : index ≤ pool.slots.size) :
    (pool.place constant).slots[index]? =
      if index = pool.slots.size then some (some constant) else pool.slots[index]? := by
  have push : (pool.slots.push (some constant))[index]? =
      if index = pool.slots.size then some (some constant) else pool.slots[index]? :=
    Array.getElem?_push
  cases wide : constant.isWide with
  | false => simpa [place, wide] using push
  | true =>
    have near : index ≠ (pool.slots.push (some constant)).size := by
      rw [Array.size_push]
      omega
    simp only [place, wide, if_true]
    rw [Array.getElem?_push, if_neg near, push]

/-- An added entry is found at its number, and moves no other. -/
theorem append?_spec {constant : Constant} (added : pool.append? constant = some (number, later)) :
    Grows pool later ∧ later.get? number = some constant := by
  unfold append? at added
  split at added
  · rename_i fits
    cases added
    have number : pool.size.toUInt16.toNat = pool.slots.size := by
      simpa [Nat.toUInt16_eq, size] using fits
    refine ⟨fun old held present => ?_, ?_⟩
    · have inside : old.toNat < pool.slots.size := by
        apply Classical.byContradiction
        intro outside
        simp [get?, Array.getElem?_eq_none (Nat.le_of_not_lt outside)] at present
      rw [get?, getElem?_place (Nat.le_of_lt inside), if_neg (Nat.ne_of_lt inside)]
      exact present
    · rw [get?, number, getElem?_place (Nat.le_refl _), if_pos rfl]
      rfl
  · cases added

end ConstantPool

/-! ### The value index -/

theorem ValueIndex.lookup_note (index : ValueIndex) (key other : ConstantKey) (number : UInt16) :
    (index.note key number).lookup other =
      (index.lookup other).or (if other = key then some number else none) := by
  unfold note
  cases known : index.lookup key with
  | some noted =>
    by_cases same : other = key
    · simp [same, known]
    · simp [same]
  | none =>
    by_cases same : other = key
    · subst same
      simp only [known, if_true, Option.none_or]
      simp [lookup]
    · have differs : (other == key) = false := by simpa using same
      simp [lookup, List.lookup_cons, differs, same]

namespace Constants

variable {constants later last : Constants} {key : ConstantKey} {number : UInt16}

/-- The constants with a value noted at a number. -/
def withNote (constants : Constants) (key : ConstantKey) (number : UInt16) : Constants :=
  { constants with index := constants.index.note key number }

@[simp] theorem pool_withNote (constants : Constants) (key : ConstantKey) (number : UInt16) :
    (constants.withNote key number).pool = constants.pool := rfl

/-- Every noted number stands for the value it is noted under. -/
def Faithful (constants : Constants) : Prop :=
  ∀ key number, constants.index.lookup key = some number → constants.pool.Denotes number key

theorem faithful_ofPool (pool : ConstantPool) : Faithful (.ofPool pool) := by
  intro key number noted
  cases noted

theorem Faithful.withNote (faithful : Faithful constants)
    (denotes : constants.pool.Denotes number key) : Faithful (constants.withNote key number) := by
  intro other known noted
  simp only [Constants.withNote, ValueIndex.lookup_note, Option.or_eq_some_iff] at noted
  rcases noted with old | ⟨_, new⟩
  · exact faithful other known old
  · split at new
    · rename_i same
      cases new
      exact same ▸ denotes
    · cases new

theorem Faithful.grow (faithful : Faithful constants) (grows : constants.pool.Grows later.pool)
    (same : later.index = constants.index) : Faithful later := by
  intro key number noted
  rw [same] at noted
  exact (faithful key number noted).mono grows

/-! ### Reading -/

@[simp] theorem yields_read {α : Type} {reader : ConstantPool → Except PoolError α} {value : α} :
    Yields (read reader) constants value later ↔
      reader constants.pool = .ok value ∧ later = constants := by
  constructor
  · intro same
    exact ⟨congrArg Prod.fst same, (congrArg Prod.snd same).symm⟩
  · rintro ⟨found, rfl⟩
    rw [Yields, read, found]

@[simp] theorem yields_note {result : Unit} :
    Yields (note key number) constants result later ↔ later = constants.withNote key number :=
  yields_modify

private theorem yields_noting {found : Option ConstantKey} :
    Yields (do note key number; pure (some key)) constants found later ↔
      found = some key ∧ later = constants.withNote key number := by
  simp only [yields_bind, yields_note, yields_pure]
  constructor
  · rintro ⟨_, _, rfl, rfl, rfl⟩
    exact ⟨rfl, rfl⟩
  · rintro ⟨rfl, rfl⟩
    exact ⟨(), _, rfl, rfl, rfl⟩

/-- A load notes the number of the constant it finds, and leaves any other entry
alone. -/
theorem yields_loadable {found : Option ConstantKey} :
    Yields (loadable number) constants found later ↔
      (∃ key, key.isLoadable = true ∧ constants.pool.Denotes number key ∧ found = some key ∧
        later = constants.withNote key number) ∨
      ∃ constant, constants.pool.get? number = some constant ∧ constant.isLoadable = false ∧
        found = none ∧ later = constants := by
  simp only [loadable, yields_bind, yields_read, ConstantPool.entry_eq_ok]
  constructor
  · rintro ⟨constant, _, ⟨held, rfl⟩, rest⟩
    split at rest
    · obtain ⟨_, _, known, rest⟩ := yields_bind.mp rest
      obtain ⟨rfl, rfl⟩ := yields_pure.mp known
      obtain ⟨rfl, rfl⟩ := yields_noting.mp rest
      exact .inl ⟨_, rfl, .integer held, rfl, rfl⟩
    · obtain ⟨_, _, known, rest⟩ := yields_bind.mp rest
      obtain ⟨rfl, rfl⟩ := yields_pure.mp known
      obtain ⟨rfl, rfl⟩ := yields_noting.mp rest
      exact .inl ⟨_, rfl, .long held, rfl, rfl⟩
    · obtain ⟨_, _, text, behind⟩ := yields_bind.mp rest
      obtain ⟨spelled, rfl⟩ := yields_read.mp text
      obtain ⟨_, _, known, last⟩ := yields_bind.mp behind
      obtain ⟨rfl, rfl⟩ := yields_pure.mp known
      obtain ⟨rfl, rfl⟩ := yields_noting.mp last
      exact .inl ⟨_, rfl, .string held (ConstantPool.utf8_eq_ok.mp spelled), rfl, rfl⟩
    · obtain ⟨_, _, known, rest⟩ := yields_bind.mp rest
      obtain ⟨rfl, rfl⟩ := yields_pure.mp known
      obtain ⟨rfl, rfl⟩ := yields_pure.mp rest
      exact .inr ⟨constant, held, by cases constant <;> simp_all [Constant.isLoadable], rfl, rfl⟩
  · rintro (⟨key, loads, denotes, rfl, rfl⟩ | ⟨constant, held, other, rfl, rfl⟩)
    · cases denotes with
      | integer held =>
        exact ⟨_, _, ⟨held, rfl⟩, yields_bind.mpr
          ⟨_, _, yields_pure.mpr ⟨rfl, rfl⟩, yields_noting.mpr ⟨rfl, rfl⟩⟩⟩
      | long held =>
        exact ⟨_, _, ⟨held, rfl⟩, yields_bind.mpr
          ⟨_, _, yields_pure.mpr ⟨rfl, rfl⟩, yields_noting.mpr ⟨rfl, rfl⟩⟩⟩
      | string held spelled =>
        exact ⟨_, _, ⟨held, rfl⟩, yields_bind.mpr ⟨_, _, yields_read.mpr
          ⟨ConstantPool.utf8_eq_ok.mpr spelled, rfl⟩, yields_bind.mpr
            ⟨_, _, yields_pure.mpr ⟨rfl, rfl⟩, yields_noting.mpr ⟨rfl, rfl⟩⟩⟩⟩
      | _ => cases loads
    · refine ⟨_, _, ⟨held, rfl⟩, ?_⟩
      cases constant <;> simp_all [Constant.isLoadable]

theorem yields_classRef {name : String} :
    Yields (classRef number) constants name later ↔
      constants.pool.Denotes number (.classRef name) ∧
        later = constants.withNote (.classRef name) number := by
  simp only [classRef, yields_bind, yields_read, yields_note, yields_pure,
    ConstantPool.className_eq_ok]
  constructor
  · rintro ⟨_, _, ⟨named, rfl⟩, _, _, rfl, rfl, rfl⟩
    exact ⟨.classRef named, rfl⟩
  · rintro ⟨denotes, rfl⟩
    cases denotes with
    | classRef named => exact ⟨_, _, ⟨named, rfl⟩, (), _, rfl, rfl, rfl⟩

theorem yields_fieldRef {member : MemberRef} :
    Yields (fieldRef number) constants member later ↔
      constants.pool.Denotes number (.field member) ∧
        later = constants.withNote (.field member) number := by
  simp only [fieldRef, yields_bind, yields_read, ConstantPool.entry_eq_ok]
  constructor
  · rintro ⟨constant, _, ⟨held, rfl⟩, read⟩
    split at read
    · simp only [yields_bind, yields_read, yields_note, yields_pure,
        ConstantPool.memberRef_eq_ok] at read
      obtain ⟨_, _, ⟨described, rfl⟩, _, _, rfl, rfl, rfl⟩ := read
      exact ⟨.field held described, rfl⟩
    · exact absurd read yields_throw
  · rintro ⟨denotes, rfl⟩
    cases denotes with
    | field held described =>
      refine ⟨_, _, ⟨held, rfl⟩, ?_⟩
      simp only [yields_bind, yields_read, yields_note, yields_pure, ConstantPool.memberRef_eq_ok]
      exact ⟨_, _, ⟨described, rfl⟩, (), _, rfl, rfl, rfl⟩

theorem yields_methodRef {member : MemberRef} {onInterface : Bool} :
    Yields (methodRef number) constants (member, onInterface) later ↔
      constants.pool.Denotes number (.ofMethod member onInterface) ∧
        later = constants.withNote (.ofMethod member onInterface) number := by
  simp only [methodRef, yields_bind, yields_read, ConstantPool.entry_eq_ok]
  constructor
  · rintro ⟨constant, _, ⟨held, rfl⟩, read⟩
    split at read
    · simp only [yields_bind, yields_read, yields_note, yields_pure,
        ConstantPool.memberRef_eq_ok] at read
      obtain ⟨_, _, ⟨described, rfl⟩, _, _, rfl, same, rfl⟩ := read
      cases same
      exact ⟨.method held described, rfl⟩
    · simp only [yields_bind, yields_read, yields_note, yields_pure,
        ConstantPool.memberRef_eq_ok] at read
      obtain ⟨_, _, ⟨described, rfl⟩, _, _, rfl, same, rfl⟩ := read
      cases same
      exact ⟨.interfaceMethod held described, rfl⟩
    · exact absurd read yields_throw
  · rintro ⟨denotes, rfl⟩
    cases onInterface with
    | false =>
      cases denotes with
      | method held described =>
        refine ⟨_, _, ⟨held, rfl⟩, ?_⟩
        simp only [yields_bind, yields_read, yields_note, yields_pure,
          ConstantPool.memberRef_eq_ok]
        exact ⟨_, _, ⟨described, rfl⟩, (), _, rfl, rfl, rfl⟩
    | true =>
      cases denotes with
      | interfaceMethod held described =>
        refine ⟨_, _, ⟨held, rfl⟩, ?_⟩
        simp only [yields_bind, yields_read, yields_note, yields_pure,
          ConstantPool.memberRef_eq_ok]
        exact ⟨_, _, ⟨described, rfl⟩, (), _, rfl, rfl, rfl⟩

/-! ### Interning -/

/-- The action adds to the pool at most, keeps the index faithful, and answers
with a number of which `stands` holds from then on. -/
def Supplies (action : ConstantsM PoolError UInt16)
    (stands : ConstantPool → UInt16 → Prop) : Prop :=
  ∀ constants number later, Faithful constants → Yields action constants number later →
    Faithful later ∧ constants.pool.Grows later.pool ∧ stands later.pool number

theorem supplies_append (constant : Constant) :
    Supplies (append constant) fun pool number => pool.get? number = some constant := by
  intro constants number later faithful yields
  simp only [append, yields_bind, yields_get] at yields
  obtain ⟨_, _, ⟨rfl, rfl⟩, yields⟩ := yields
  split at yields
  · rename_i _ pool added
    simp only [yields_bind, yields_modify, yields_pure] at yields
    obtain ⟨_, _, rfl, rfl, rfl⟩ := yields
    obtain ⟨grows, held⟩ := ConstantPool.append?_spec added
    exact ⟨faithful.grow grows rfl, grows, held⟩
  · exact absurd yields yields_throw

theorem supplies_noted {add : ConstantsM PoolError UInt16}
    (supplies : Supplies add fun pool number => pool.Denotes number key) :
    Supplies (noted key add) fun pool number => pool.Denotes number key := by
  intro constants number later faithful yields
  simp only [noted, yields_bind, yields_get] at yields
  obtain ⟨_, _, ⟨rfl, rfl⟩, yields⟩ := yields
  split at yields
  · rename_i known
    simp only [yields_pure] at yields
    obtain ⟨rfl, rfl⟩ := yields
    exact ⟨faithful, .refl _, faithful key _ known⟩
  · simp only [yields_bind, yields_note, yields_pure] at yields
    obtain ⟨_, _, added, _, _, rfl, rfl, rfl⟩ := yields
    obtain ⟨kept, grows, denotes⟩ := supplies _ _ _ faithful added
    exact ⟨kept.withNote denotes, grows, denotes⟩

theorem supplies_internClass (name : String) :
    Supplies (internClass name) fun pool number => pool.Denotes number (.classRef name) := by
  apply supplies_noted
  intro constants number later faithful yields
  obtain ⟨text, between, spelled, held⟩ := yields_bind.mp yields
  obtain ⟨faithful, early, spelled⟩ := supplies_append _ _ _ _ faithful spelled
  obtain ⟨faithful, late, held⟩ := supplies_append _ _ _ _ faithful held
  exact ⟨faithful, early.trans late, .classRef ⟨text, held, late _ _ spelled⟩⟩

theorem supplies_appendNameAndType (member : MemberRef) :
    Supplies (appendNameAndType member) fun pool number => ∃ name descriptor,
      pool.get? number = some (.nameAndType name descriptor) ∧
        pool.get? name = some (.utf8 member.name) ∧
        pool.get? descriptor = some (.utf8 member.descriptor) := by
  intro constants number later faithful yields
  simp only [appendNameAndType, yields_bind] at yields
  obtain ⟨name, _, named, descriptor, _, typed, held⟩ := yields
  obtain ⟨faithful, first, named⟩ := supplies_append _ _ _ _ faithful named
  obtain ⟨faithful, second, typed⟩ := supplies_append _ _ _ _ faithful typed
  obtain ⟨faithful, third, held⟩ := supplies_append _ _ _ _ faithful held
  exact ⟨faithful, (first.trans second).trans third, name, descriptor, held,
    third _ _ (second _ _ named), third _ _ typed⟩

/-- A member is added behind the class that owns it. -/
theorem supplies_member (member : MemberRef) (entry : UInt16 → UInt16 → Constant) :
    Supplies (do
      let owner ← internClass member.owner
      append (entry owner (← appendNameAndType member))) fun pool number =>
        ∃ owner nameAndType, pool.get? number = some (entry owner nameAndType) ∧
          pool.Describes owner nameAndType member := by
  intro constants number later faithful yields
  simp only [yields_bind] at yields
  obtain ⟨owner, _, owned, nameAndType, _, typed, held⟩ := yields
  obtain ⟨faithful, first, owned⟩ := supplies_internClass _ _ _ _ faithful owned
  obtain ⟨faithful, second, name, descriptor, typed, named, described⟩ :=
    supplies_appendNameAndType _ _ _ _ faithful typed
  obtain ⟨faithful, third, held⟩ := supplies_append _ _ _ _ faithful held
  cases owned with
  | classRef named' =>
    exact ⟨faithful, (first.trans second).trans third, owner, nameAndType, held,
      named'.mono (second.trans third), name, descriptor, third _ _ typed, third _ _ named,
      third _ _ described⟩

theorem Supplies.imp {action : ConstantsM PoolError UInt16}
    {stands stands' : ConstantPool → UInt16 → Prop} (supplies : Supplies action stands)
    (weaker : ∀ pool number, stands pool number → stands' pool number) :
    Supplies action stands' := by
  intro constants number later faithful yields
  obtain ⟨kept, grows, holds⟩ := supplies constants number later faithful yields
  exact ⟨kept, grows, weaker _ _ holds⟩

/-- The number of an interned value stands for it. -/
theorem supplies_intern (key : ConstantKey) :
    Supplies (intern key) fun pool number => pool.Denotes number key := by
  cases key with
  | integer value =>
    exact supplies_noted ((supplies_append _).imp fun _ _ held => .integer held)
  | long value => exact supplies_noted ((supplies_append _).imp fun _ _ held => .long held)
  | string value =>
    apply supplies_noted
    intro constants number later faithful yields
    obtain ⟨text, between, spelled, held⟩ := yields_bind.mp yields
    obtain ⟨faithful, early, spelled⟩ := supplies_append _ _ _ _ faithful spelled
    obtain ⟨faithful, late, held⟩ := supplies_append _ _ _ _ faithful held
    exact ⟨faithful, early.trans late, .string held (late _ _ spelled)⟩
  | classRef name => exact supplies_internClass name
  | field member =>
    exact supplies_noted ((supplies_member member _).imp
      fun _ _ ⟨_, _, held, described⟩ => .field held described)
  | method member =>
    exact supplies_noted ((supplies_member member _).imp
      fun _ _ ⟨_, _, held, described⟩ => .method held described)
  | interfaceMethod member =>
    exact supplies_noted ((supplies_member member _).imp
      fun _ _ ⟨_, _, held, described⟩ => .interfaceMethod held described)

theorem yields_noted_of_known (add : ConstantsM PoolError UInt16)
    (known : constants.index.lookup key = some number) :
    Yields (noted key add) constants number constants := by
  simp only [noted, yields_bind, yields_get]
  exact ⟨_, _, ⟨rfl, rfl⟩, by simp [known]⟩

/-- A value that is noted already is found where it was. -/
theorem yields_intern_of_noted (known : constants.index.lookup key = some number) :
    Yields (intern key) constants number constants := by
  cases key <;> exact yields_noted_of_known _ known

end Constants

end LiteralRecovery
