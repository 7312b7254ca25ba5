import LiteralRecovery.Proofs.ConstantValues

/-! Calls on the constants of one class, in any order and number. Whether a call
succeeds or fails on the way, the pool keeps every entry it had and the index
every note it had, and all notes stay faithful: a number is noted under the one
value it stands for. So a value that was seen once is found where it was seen
first, and a value that was added is added once. -/
namespace LiteralRecovery

namespace ConstantPool

variable {pool : ConstantPool} {number : UInt16} {key other : ConstantKey}

theorem Names.unique {first second : String} (named : pool.Names number first)
    (named' : pool.Names number second) : first = second := by
  obtain ⟨text, held, spelled⟩ := named
  obtain ⟨text', held', spelled'⟩ := named'
  simp_all

theorem Describes.unique {owner nameAndType : UInt16} {first second : MemberRef}
    (described : pool.Describes owner nameAndType first)
    (described' : pool.Describes owner nameAndType second) : first = second := by
  obtain ⟨owned, name, descriptor, held, spelled, typed⟩ := described
  obtain ⟨owned', name', descriptor', held', spelled', typed'⟩ := described'
  have owners := owned.unique owned'
  cases first
  cases second
  simp_all

/-- A number stands for one value at most: the entry decides what kind of value
it is, and the entries it leads to decide the rest. -/
theorem Denotes.unique (denotes : pool.Denotes number key) (denotes' : pool.Denotes number other) :
    key = other := by
  cases denotes <;> cases denotes' <;> grind [Names.unique, Describes.unique, Names]

end ConstantPool

namespace Constants

variable {ε α β : Type} {constants later last : Constants} {key : ConstantKey} {number : UInt16}

/-- Later constants have all entries and all notes that earlier ones had. -/
structure Extends (constants later : Constants) : Prop where
  grows : constants.pool.Grows later.pool
  notes : ∀ key number, constants.index.lookup key = some number →
    later.index.lookup key = some number

theorem Extends.refl (constants : Constants) : Extends constants constants :=
  ⟨.refl _, fun _ _ noted => noted⟩

theorem Extends.trans (first : Extends constants later) (second : Extends later last) :
    Extends constants last :=
  ⟨first.grows.trans second.grows,
    fun key number noted => second.notes key number (first.notes key number noted)⟩

theorem extends_withNote (constants : Constants) (key : ConstantKey) (number : UInt16) :
    Extends constants (constants.withNote key number) := by
  refine ⟨.refl _, fun other known noted => ?_⟩
  rw [withNote, ValueIndex.lookup_note, noted, Option.some_or]

/-! ### Actions that may fail -/

/-- Whatever comes of the action, it leaves faithful constants that extend the
ones it started from. -/
def Keeps (action : ConstantsM ε α) (constants : Constants) : Prop :=
  Faithful (action constants).2 ∧ Extends constants (action constants).2

theorem keeps_pure (faithful : Faithful constants) (value : α) :
    Keeps (pure value : ConstantsM ε α) constants :=
  ⟨faithful, .refl _⟩

theorem keeps_throw (faithful : Faithful constants) (error : ε) :
    Keeps (throw error : ConstantsM ε α) constants :=
  ⟨faithful, .refl _⟩

/-- An action that fails halfway has done its first half, which keeps what it
has to; only if that half succeeds is there a second. -/
theorem keeps_bind {action : ConstantsM ε α} {next : α → ConstantsM ε β}
    (first : Keeps action constants)
    (second : ∀ value between, Yields action constants value between → Faithful between →
      Keeps (next value) between) : Keeps (action >>= next) constants := by
  obtain ⟨faithful, extended⟩ := first
  rw [Keeps, run_bind]
  split
  · rename_i value between yields
    rw [yields] at faithful extended
    obtain ⟨faithful', extended'⟩ := second value between yields faithful
    exact ⟨faithful', extended.trans extended'⟩
  · rename_i error between failed
    rw [failed] at faithful extended
    exact ⟨faithful, extended⟩

theorem keeps_read (faithful : Faithful constants) (reader : ConstantPool → Except PoolError α) :
    Keeps (read reader) constants :=
  ⟨faithful, .refl _⟩

/-- A note is kept faithful by the value that its number stands for. -/
theorem keeps_note (faithful : Faithful constants)
    (denotes : constants.pool.Denotes number key) : Keeps (note key number) constants :=
  ⟨faithful.withNote denotes, extends_withNote constants key number⟩

/-- The way every lookup goes: read the pool, and act on what was read. -/
theorem keeps_read_bind {reader : ConstantPool → Except PoolError α}
    {next : α → ConstantsM PoolError β} (faithful : Faithful constants)
    (second : ∀ value, reader constants.pool = .ok value → Keeps (next value) constants) :
    Keeps (read reader >>= next) constants := by
  apply keeps_bind (keeps_read faithful reader)
  intro value between yields _
  obtain ⟨found, rfl⟩ := yields_read.mp yields
  exact second value found

theorem keeps_note_pure (faithful : Faithful constants)
    (denotes : constants.pool.Denotes number key) (value : α) :
    Keeps (do note key number; pure value) constants :=
  keeps_bind (keeps_note faithful denotes) fun _ _ _ faithful => keeps_pure faithful value

theorem keeps_loadable (faithful : Faithful constants) (number : UInt16) :
    Keeps (loadable number) constants := by
  apply keeps_read_bind faithful
  intro constant held
  rw [ConstantPool.entry_eq_ok] at held
  split
  · exact keeps_note_pure faithful (.integer held) _
  · exact keeps_note_pure faithful (.long held) _
  · apply keeps_read_bind faithful
    intro text spelled
    exact keeps_note_pure faithful (.string held (ConstantPool.utf8_eq_ok.mp spelled)) _
  · exact keeps_pure faithful _

theorem keeps_classRef (faithful : Faithful constants) (number : UInt16) :
    Keeps (classRef number) constants := by
  apply keeps_read_bind faithful
  intro name named
  exact keeps_note_pure faithful (.classRef (ConstantPool.className_eq_ok.mp named)) _

theorem keeps_fieldRef (faithful : Faithful constants) (number : UInt16) :
    Keeps (fieldRef number) constants := by
  apply keeps_read_bind faithful
  intro constant held
  rw [ConstantPool.entry_eq_ok] at held
  split
  · apply keeps_read_bind faithful
    intro member described
    exact keeps_note_pure faithful (.field held (ConstantPool.memberRef_eq_ok.mp described)) _
  · exact keeps_throw faithful _

theorem keeps_methodRef (faithful : Faithful constants) (number : UInt16) :
    Keeps (methodRef number) constants := by
  apply keeps_read_bind faithful
  intro constant held
  rw [ConstantPool.entry_eq_ok] at held
  split
  · apply keeps_read_bind faithful
    intro member described
    exact keeps_note_pure faithful (.method held (ConstantPool.memberRef_eq_ok.mp described)) _
  · apply keeps_read_bind faithful
    intro member described
    exact keeps_note_pure faithful
      (.interfaceMethod held (ConstantPool.memberRef_eq_ok.mp described)) _
  · exact keeps_throw faithful _

/-- What is done next may depend on the constants as they are. -/
theorem keeps_get_bind {next : Constants → ConstantsM ε β} (faithful : Faithful constants)
    (second : Keeps (next constants) constants) :
    Keeps (do next (← get)) constants := by
  have here : Keeps (get : ConstantsM ε Constants) constants := ⟨faithful, .refl _⟩
  apply keeps_bind here
  intro value between yields _
  obtain ⟨rfl, rfl⟩ := yields_get.mp yields
  exact second

theorem keeps_append (faithful : Faithful constants) (constant : Constant) :
    Keeps (append constant) constants := by
  apply keeps_get_bind faithful
  split
  · rename_i number pool added
    have grows := (ConstantPool.append?_spec added).1
    have placed : Keeps (modify fun constants => { constants with pool } :
        ConstantsM PoolError PUnit) constants :=
      ⟨faithful.grow grows rfl, grows, fun _ _ noted => noted⟩
    exact keeps_bind placed fun _ _ _ faithful => keeps_pure faithful number
  · exact keeps_throw faithful _

theorem keeps_append_text (faithful : Faithful constants) (text : String)
    (entry : UInt16 → Constant) : Keeps (do append (entry (← append (.utf8 text)))) constants :=
  keeps_bind (keeps_append faithful _) fun _ _ _ faithful => keeps_append faithful _

theorem yields_noted_of_new {add : ConstantsM PoolError UInt16}
    (unknown : constants.index.lookup key = none) :
    Yields (noted key add) constants number last ↔
      ∃ between, Yields add constants number between ∧ last = between.withNote key number := by
  simp only [noted, yields_bind, yields_get]
  constructor
  · rintro ⟨_, _, ⟨rfl, rfl⟩, yields⟩
    simp only [unknown, yields_bind, yields_note, yields_pure] at yields
    obtain ⟨_, between, added, _, _, rfl, rfl, rfl⟩ := yields
    exact ⟨between, added, rfl⟩
  · rintro ⟨between, added, rfl⟩
    refine ⟨_, _, ⟨rfl, rfl⟩, ?_⟩
    simp only [unknown, yields_bind, yields_note, yields_pure]
    exact ⟨_, _, added, (), _, rfl, rfl, rfl⟩

/-- A value that is added on its first use is noted only when its entries are
all there. -/
theorem keeps_noted {add : ConstantsM PoolError UInt16} (faithful : Faithful constants)
    (supplies : Supplies (noted key add) fun pool number => pool.Denotes number key)
    (keeps : Keeps add constants) : Keeps (noted key add) constants := by
  apply keeps_get_bind faithful
  split
  · exact keeps_pure faithful _
  · rename_i unknown
    apply keeps_bind keeps
    intro number between added faithful'
    have whole := (yields_noted_of_new unknown).mpr ⟨between, added, rfl⟩
    obtain ⟨_, _, denotes⟩ := supplies _ _ _ faithful whole
    exact keeps_note_pure faithful' denotes number

theorem keeps_internClass (faithful : Faithful constants) (name : String) :
    Keeps (internClass name) constants :=
  keeps_noted faithful (supplies_internClass name) (keeps_append_text faithful name _)

/-- The owner of a member that could not be added is noted all the same. -/
theorem keeps_member (faithful : Faithful constants) (member : MemberRef)
    (entry : UInt16 → UInt16 → Constant) :
    Keeps (do
      let owner ← internClass member.owner
      append (entry owner (← appendNameAndType member))) constants := by
  apply keeps_bind (keeps_internClass faithful member.owner)
  intro owner _ _ faithful
  refine keeps_bind ?_ fun _ _ _ faithful => keeps_append faithful _
  refine keeps_bind (keeps_append faithful _) fun _ _ _ faithful => ?_
  exact keeps_bind (keeps_append faithful _) fun _ _ _ faithful => keeps_append faithful _

theorem keeps_intern (faithful : Faithful constants) (key : ConstantKey) :
    Keeps (intern key) constants := by
  have supplies := supplies_intern key
  cases key with
  | integer value => exact keeps_noted faithful supplies (keeps_append faithful _)
  | long value => exact keeps_noted faithful supplies (keeps_append faithful _)
  | string text => exact keeps_noted faithful supplies (keeps_append_text faithful text _)
  | classRef name => exact keeps_internClass faithful name
  | field member => exact keeps_noted faithful supplies (keeps_member faithful member _)
  | method member => exact keeps_noted faithful supplies (keeps_member faithful member _)
  | interfaceMethod member => exact keeps_noted faithful supplies (keeps_member faithful member _)

/-! ### What interning notes -/

/-- The action does not note the value. -/
def Spares (action : ConstantsM PoolError α) (key : ConstantKey) : Prop :=
  ∀ constants value later, Yields action constants value later →
    later.index.lookup key = constants.index.lookup key

theorem spares_bind {action : ConstantsM PoolError α} {next : α → ConstantsM PoolError β}
    (first : Spares action key) (second : ∀ value, Spares (next value) key) :
    Spares (action >>= next) key := by
  intro constants value later yields
  obtain ⟨half, between, early, late⟩ := yields_bind.mp yields
  exact (second half between value later late).trans (first constants half between early)

theorem spares_append (constant : Constant) (key : ConstantKey) : Spares (append constant) key := by
  intro constants number later yields
  simp only [append, yields_bind, yields_get] at yields
  obtain ⟨_, _, ⟨rfl, rfl⟩, yields⟩ := yields
  split at yields
  · simp only [yields_bind, yields_modify, yields_pure] at yields
    obtain ⟨_, _, rfl, rfl, rfl⟩ := yields
    rfl
  · exact absurd yields yields_throw

theorem spares_noted {add : ConstantsM PoolError UInt16} {other : ConstantKey}
    (spares : Spares add other) (different : other ≠ key) : Spares (noted key add) other := by
  intro constants number later yields
  cases known : constants.index.lookup key with
  | some noted =>
    rw [(yields.unique (yields_noted_of_known add known)).2]
  | none =>
    obtain ⟨between, added, rfl⟩ := (yields_noted_of_new known).mp yields
    rw [withNote, ValueIndex.lookup_note, if_neg different, Option.or_none]
    exact spares constants number between added

/-- Adding a member notes its owner, and the member itself is left to be noted
at the end. -/
theorem spares_member (member : MemberRef) (entry : UInt16 → UInt16 → Constant)
    (other : ∀ name, key ≠ .classRef name) :
    Spares (do
      let owner ← internClass member.owner
      append (entry owner (← appendNameAndType member))) key := by
  have owned : Spares (internClass member.owner) key :=
    spares_noted (spares_bind (spares_append _ _) fun _ => spares_append _ _) (other _)
  have typed : Spares (appendNameAndType member) key :=
    spares_bind (spares_append _ _) fun _ => spares_bind (spares_append _ _) fun _ =>
      spares_append _ _
  exact spares_bind owned fun _ => spares_bind typed fun _ => spares_append _ _

/-- Interning goes through a note, and what adds a value does not note it. -/
theorem intern_eq_noted (key : ConstantKey) :
    ∃ add, intern key = noted key add ∧ Spares add key := by
  cases key with
  | integer value => exact ⟨_, rfl, spares_append _ _⟩
  | long value => exact ⟨_, rfl, spares_append _ _⟩
  | string text => exact ⟨_, rfl, spares_bind (spares_append _ _) fun _ => spares_append _ _⟩
  | classRef name => exact ⟨_, rfl, spares_bind (spares_append _ _) fun _ => spares_append _ _⟩
  | field member => exact ⟨_, rfl, spares_member member _ (by simp)⟩
  | method member => exact ⟨_, rfl, spares_member member _ (by simp)⟩
  | interfaceMethod member => exact ⟨_, rfl, spares_member member _ (by simp)⟩

/-- The number of an interned value is the one noted for it from then on. -/
theorem lookup_of_intern (yields : Yields (intern key) constants number later) :
    later.index.lookup key = some number := by
  cases known : constants.index.lookup key with
  | some noted =>
    obtain ⟨rfl, rfl⟩ := yields.unique (yields_intern_of_noted known)
    exact known
  | none =>
    obtain ⟨add, same, spares⟩ := intern_eq_noted key
    rw [same] at yields
    obtain ⟨between, added, rfl⟩ := (yields_noted_of_new known).mp yields
    have still : between.index.lookup key = none := (spares _ _ _ added).trans known
    simp [withNote, ValueIndex.lookup_note, still]

/-! ### Calls one after the other -/

/-- A call on the constants of a class. -/
inductive Call where
  | loadable (number : UInt16)
  | classRef (number : UInt16)
  | fieldRef (number : UInt16)
  | methodRef (number : UInt16)
  | intern (key : ConstantKey)
deriving DecidableEq

/-- The constants that a call leaves, be it after a success or a failure. -/
def perform (constants : Constants) : Call → Constants
  | .loadable number => (loadable number constants).2
  | .classRef number => (classRef number constants).2
  | .fieldRef number => (fieldRef number constants).2
  | .methodRef number => (methodRef number constants).2
  | .intern key => (intern key constants).2

def performAll (constants : Constants) (calls : List Call) : Constants :=
  calls.foldl perform constants

theorem perform_keeps (faithful : Faithful constants) (call : Call) :
    Faithful (constants.perform call) ∧ Extends constants (constants.perform call) := by
  cases call with
  | loadable number => exact keeps_loadable faithful number
  | classRef number => exact keeps_classRef faithful number
  | fieldRef number => exact keeps_fieldRef faithful number
  | methodRef number => exact keeps_methodRef faithful number
  | intern key => exact keeps_intern faithful key

theorem performAll_keeps (faithful : Faithful constants) (calls : List Call) :
    Faithful (constants.performAll calls) ∧ Extends constants (constants.performAll calls) := by
  induction calls generalizing constants with
  | nil => exact ⟨faithful, .refl _⟩
  | cons call calls ih =>
    obtain ⟨faithful', extended⟩ := perform_keeps faithful call
    obtain ⟨faithful'', extended'⟩ := ih faithful'
    exact ⟨faithful'', extended.trans extended'⟩

/-- The pool and the index agree after any calls, failed ones included. The
entries that the pool had at any moment are the same ever after, and so are the
notes; the number noted for a value stands for that value and no other, so that
two values never share one. A successful intern gives a number that stands for
the value, the one noted first if there is one; asked again at any later time it
gives the same number and changes nothing. -/
theorem calls_keep_agreement (pool : ConstantPool) (calls more : List Call) :
    let early := (ofPool pool).performAll calls
    let late := early.performAll more
    (pool.Grows early.pool ∧ early.pool.Grows late.pool) ∧
    (∀ key number, early.index.lookup key = some number →
      late.index.lookup key = some number) ∧
    (∀ key number, late.index.lookup key = some number →
      ∀ other, late.pool.Denotes number other ↔ other = key) ∧
    (∀ key other number, late.index.lookup key = some number →
      late.index.lookup other = some number → key = other) ∧
    ∀ key number after, intern key early = (.ok number, after) →
      after.pool.Denotes number key ∧
      (∀ first, early.index.lookup key = some first → number = first ∧ after = early) ∧
      ∀ rest, intern key (after.performAll rest) = (.ok number, after.performAll rest) := by
  intro early late
  obtain ⟨faithful, extended⟩ := performAll_keeps (faithful_ofPool pool) calls
  obtain ⟨faithful', extended'⟩ := performAll_keeps faithful more
  have stands {key : ConstantKey} {number : UInt16}
      (noted : late.index.lookup key = some number) (other : ConstantKey) :
      late.pool.Denotes number other ↔ other = key := by
    have denotes := faithful' key number noted
    refine ⟨fun denotes' => denotes'.unique denotes, ?_⟩
    rintro rfl
    exact denotes
  refine ⟨⟨extended.grows, extended'.grows⟩, extended'.notes, fun _ _ noted => stands noted,
    fun key other number noted noted' => ?_, fun key number after interned => ?_⟩
  · exact (stands noted' key).mp ((stands noted key).mpr rfl)
  · obtain ⟨faithful'', _, denotes⟩ := supplies_intern key _ _ _ faithful interned
    refine ⟨denotes, fun first noted => ?_, fun rest => ?_⟩
    · exact Yields.unique interned (yields_intern_of_noted noted)
    · obtain ⟨_, extended''⟩ := performAll_keeps faithful'' rest
      exact yields_intern_of_noted (extended''.notes key number (lookup_of_intern interned))

/-- A pool with a class, and with one number twice. -/
def twinPool : ConstantPool := .ofList [.utf8 "A", .classRef 1, .integer 70000, .integer 70000]

/-- The number is noted where it is seen first, a failed call changes nothing of
that, and a field of the class is added once. -/
theorem twinPool_agrees :
    let early := (ofPool twinPool).performAll
      [.loadable 4, .loadable 3, .fieldRef 2, .classRef 2]
    let field : MemberRef := ⟨"A", "t", "[I"⟩
    (fieldRef 2 (ofPool twinPool)).1 = .error (.notFieldRef 2) ∧
    (∀ other, early.pool.Denotes 4 other ↔ other = .integer 70000) ∧
    intern (.integer 70000) early = (.ok 4, early) ∧
    ∃ after, intern (.field field) early = (.ok 8, after) ∧
      after.pool.Denotes 8 (.field field) ∧
      ∀ rest, intern (.field field) (after.performAll rest) =
        (.ok 8, after.performAll rest) := by
  intro early field
  obtain ⟨_, _, stands, _, interned⟩ := calls_keep_agreement twinPool
    [.loadable 4, .loadable 3, .fieldRef 2, .classRef 2] []
  have known : early.index.lookup (.integer 70000) = some 4 := by decide +kernel
  have added : intern (.field field) early = (.ok 8, (intern (.field field) early).2) := rfl
  obtain ⟨denotes, _, again⟩ := interned _ _ _ added
  exact ⟨rfl, stands _ _ known, yields_intern_of_noted known, _, added, denotes, again⟩

end Constants

end LiteralRecovery
