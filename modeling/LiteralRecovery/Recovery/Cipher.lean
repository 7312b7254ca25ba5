import LiteralRecovery.Instruction
import LiteralRecovery.Listing.Basic

/-! String tables are filled through a helper method that masks its argument.
The mask is put together from the names of the class, of the method that
calls the helper and of the helper, and from a constant inside the helper. -/
namespace LiteralRecovery.Cipher

/-- The constant of the first three consecutive instructions `ixor`, int
constant, `ixor`; zero for a helper that has none. -/
def embeddedKey (helper : Listing Instruction) : Int32 :=
  (helper.items.findSome? fun (id, _) =>
    match helper.window 3 id with
    | some [(_, .bitwise .int .xor), (_, .intConst key), (_, .bitwise .int .xor)] => some key
    | _ => none).getD 0

/-- The class name with dots between its parts. -/
def dottedName (className : String) : String :=
  className.map fun c => if c = '/' then '.' else c

/-- The mask of strings stored by the static initializer of `className`. -/
def effectiveKey (className helperName : String) (embedded : Int32) : Int32 :=
  textHash (dottedName className) ^^^ textHash initializerName ^^^ textHash helperName ^^^ embedded

/-- The literal that a call of the helper with `cipher` returns. -/
def decrypt (className helperName : String) (helper : Listing Instruction)
    (cipher : UnitString) : UnitString :=
  cipher.mask (effectiveKey className helperName (embeddedKey helper))

end LiteralRecovery.Cipher
