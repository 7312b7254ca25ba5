import LiteralRecovery.Proofs.FoldNormal
import LiteralRecovery.Proofs.MaskedText
import LiteralRecovery.Proofs.Tidy

/-! Classes in which every table is filled block by block in the static
initializer and read at constant indexes only. What recovery has to make of
such a class is computed here from the blocks alone. -/
namespace LiteralRecovery

namespace Scheme

/-- What a store puts into its slot, for a type of int values and one of long
values: expressions at first, constants once folding is done. -/
inductive Source (ι κ : Type) where
  | int (value : ι)
  | long (value : κ)
  | string (cipher : UnitString) (helper : MemberKey) (onInterface : Bool)

/-- A block of the static initializer. -/
inductive Block (ι κ : Type) where
  | allocate (size : Int32) (kind : ArrayKind) (table : MemberKey)
  | store (table : MemberKey) (index : ι) (source : Source ι κ)
  | other (code : Bytecode)

/-- A part of any other method: the read of a slot, or an instruction that has
nothing to do with the class. -/
inductive Part where
  | use (table : MemberKey) (index : Int32)
  | other (instruction : Instruction)

/-- A block without expressions. -/
abbrev Entry := Block Int32 Int64

section Code

variable {ι κ ι' κ' : Type} (owner : String)

namespace Source

def map (onInt : ι → ι') (onLong : κ → κ') : Source ι κ → Source ι' κ'
  | .int value => .int (onInt value)
  | .long value => .long (onLong value)
  | .string cipher helper onInterface => .string cipher helper onInterface

def kind : Source ι κ → ElementKind
  | .int _ => .int
  | .long _ => .long
  | .string _ _ _ => .reference

def helper? : Source ι κ → Option MemberKey
  | .string _ helper _ => some helper
  | _ => none

/-- The instructions between index and store. -/
def code (intCode : ι → List Instruction) (longCode : κ → List Instruction) :
    Source ι κ → List Instruction
  | .int value => intCode value
  | .long value => longCode value
  | .string cipher helper onInterface =>
    [.stringConst cipher, .invokeStatic (helper.owned owner) onInterface]

end Source

namespace Block

def map (onInt : ι → ι') (onLong : κ → κ') : Block ι κ → Block ι' κ'
  | .allocate size kind table => .allocate size kind table
  | .store table index source => .store table (onInt index) (source.map onInt onLong)
  | .other code => .other code

/-- The table that a block is about. -/
def table? : Block ι κ → Option MemberKey
  | .allocate _ _ table => some table
  | .store table _ _ => some table
  | .other _ => none

def code (intCode : ι → List Instruction) (longCode : κ → List Instruction) :
    Block ι κ → List Instruction
  | .allocate size kind table =>
    [.intConst size, .newArray kind, .putStatic (table.owned owner)]
  | .store table index source =>
    .getStatic (table.owned owner) :: intCode index ++ source.code owner intCode longCode ++
      [.arrayStore source.kind]
  | .other code => [.plain code]

end Block

end Code

/-- The instructions of a block without expressions. -/
def Entry.code (owner : String) (entry : Entry) : List Instruction :=
  Block.code owner (fun value => [.intConst value]) (fun value => [.longConst value]) entry

namespace Part

def slot? : Part → Option (MemberKey × Int32)
  | .use table index => some (table, index)
  | .other _ => none

def code (owner : String) (kindOf : MemberKey → ElementKind) : Part → List Instruction
  | .use table index =>
    [.getStatic (table.owned owner), .intConst index, .arrayLoad (kindOf table)]
  | .other instruction => [instruction]

end Part

/-- Whether an instruction names a static member of the class. -/
def refersTo (owner : String) : Instruction → Bool
  | .getStatic field | .putStatic field => field.owner = owner
  | .invokeStatic target _ => target.owner = owner
  | _ => false

end Scheme

/-- How a class is put together: the element kind of each of its tables, the
blocks of its static initializer and the parts of each other method. -/
structure Scheme where
  kindOf : MemberKey → ElementKind
  blocks : List (Scheme.Block (Expr .int) (Expr .long))
  parts : MemberKey → List Scheme.Part

namespace Scheme

variable (scheme : Scheme) (cls : Class)

/-- A block stays with declared tables, in the kind of each, and masks strings
with a helper that reads no table. -/
def Suits {ι κ : Type} : Block ι κ → Prop
  | .allocate _ _ table => table ∈ cls.fields.map Field.key
  | .store table _ source => table ∈ cls.fields.map Field.key ∧ source.kind = scheme.kindOf table ∧
    ∀ helper ∈ source.helper?, helper ∈ cls.methods.map Method.key ∧
      helper.name ≠ initializerName ∧ ∀ part ∈ scheme.parts helper, part.slot? = none
  | .other _ => True

/-- A part reads a declared table or does not name the class at all. -/
def Admits : Part → Prop
  | .use table _ => table ∈ cls.fields.map Field.key
  | .other instruction => refersTo cls.name instruction = false

/-- The class is put together as the scheme says. -/
structure Fits : Prop where
  fields : (cls.fields.map Field.key).Nodup
  methods : (cls.methods.map Method.key).Nodup
  initializer : ∃ front method back, InitializerAt cls front method back ∧
    (∀ other ∈ back, other.name ≠ initializerName) ∧
    method.code.toList = scheme.blocks.flatMap (Block.code cls.name Expr.code Expr.code)
  bodies : ∀ method ∈ cls.methods, method.name ≠ initializerName →
    method.code.toList = (scheme.parts method.key).flatMap (Part.code cls.name scheme.kindOf)
  suits : ∀ block ∈ scheme.blocks, Suits scheme cls block
  admits : ∀ method ∈ cls.methods, method.name ≠ initializerName →
    ∀ part ∈ scheme.parts method.key, Admits cls part

/-! ### What recovery makes of it -/

/-- The blocks with every expression evaluated. -/
def entries : List Entry := scheme.blocks.map (Block.map Expr.eval Expr.eval)

/-- What the first store into a slot puts there. -/
def firstStore (entries : List Entry) (table : MemberKey) (index : Int32) :
    Option (Source Int32 Int64) :=
  entries.findSome? fun
    | .store other position source =>
      if other = table ∧ position = index then some source else none
    | _ => none

/-- The constant that stands for a source; the mask of a string comes from the names
and from the first number between two exclusive ors of its helper. -/
def Source.value (cls : Class) : Source Int32 Int64 → Instruction
  | .int value => .intConst value
  | .long value => .longConst value
  | .string cipher helper _ =>
    match cls.method? helper with
    | some method =>
      .stringConst (Cipher.unmasked cls.name helper.name method.code.toList cipher)
    | none => .stringConst cipher

/-- The constant that takes the place of a use. -/
def slotValue (table : MemberKey) (index : Int32) : Instruction :=
  match firstStore scheme.entries table index with
  | some source => source.value cls
  | none => .zero (scheme.kindOf table)

/-- The slots that are read somewhere. -/
def usedSlots : List (MemberKey × Int32) :=
  (cls.methods.filter (·.name ≠ initializerName)).flatMap fun method =>
    (scheme.parts method.key).filterMap Part.slot?

/-- Whether a table goes: something reads a slot of it that is stored into. -/
def takesTable (table : MemberKey) : Bool :=
  (scheme.usedSlots cls).any fun (other, index) =>
    other = table && (firstStore scheme.entries other index).isSome

/-- Whether a helper goes: it unmasks a string that is read, and no store into a
table that stays calls it. -/
def takesHelper (helper : MemberKey) : Bool :=
  ((scheme.usedSlots cls).any fun (table, index) =>
    (firstStore scheme.entries table index).any (·.helper? = some helper)) &&
  scheme.entries.all fun
    | .store table _ source => source.helper? ≠ some helper || scheme.takesTable cls table
    | _ => true

/-- Whether an entry stays: it is not about a table that goes. -/
def stays (entry : Entry) : Bool := entry.table?.all (!scheme.takesTable cls ·)

/-- The static initializer without the blocks of tables that go. -/
def recoveredInitializer : List Instruction :=
  (scheme.entries.filter (scheme.stays cls)).flatMap (Entry.code cls.name)

/-- Any other method, with a constant for each use. -/
def recoveredBody (key : MemberKey) : List Instruction :=
  (scheme.parts key).map fun
    | .use table index => scheme.slotValue cls table index
    | .other instruction => instruction

end Scheme

end LiteralRecovery
