import LiteralRecovery.Proofs.Shapes
import LiteralRecovery.Proofs.UnitText
import Mathlib.Algebra.BigOperators.Fin

/-! Masked strings come back exactly. The mask is told here without the code that
finds it: three names count as numbers to base 31, a fourth number is the first that
stands between two exclusive ors of the helper, and of all four together the low half
is laid over every unit. Laid over twice it cancels out, so that a text masked in this
way is read back as it was. Whatever else is unmasked reads as a text just when no
surrogate is alone, and then as the only text with these units. -/
namespace LiteralRecovery

/-! ### Hashes -/

/-- The units as the digits of a number to base 31, the first one highest. -/
def base31 (units : List UInt16) : Nat :=
  ∑ j : Fin units.length, units[j].toNat * 31 ^ (units.length - 1 - j)

/-- The number that the units of a text spell to base 31, modulo `2 ^ 32` and read
with a sign. -/
def signedHash (text : String) : Int32 :=
  .ofInt ((base31 (UnitString.ofText text).units : Int).bmod (2 ^ 32))

theorem base31_cons (unit : UInt16) (rest : List UInt16) :
    base31 (unit :: rest) = unit.toNat * 31 ^ rest.length + base31 rest := by
  unfold base31
  refine (Fin.sum_univ_succ _).trans ?_
  congr 1
  refine Finset.sum_congr rfl fun j _ => ?_
  have power : (unit :: rest).length - 1 - (j.succ : Nat) = rest.length - 1 - j := by
    simp only [List.length_cons, Fin.val_succ]
    omega
  rw [power]
  rfl

/-- Taking in one unit after the other adds up to the whole number. -/
theorem foldl_hash (units : List UInt16) (hash : Int32) :
    units.foldl (fun hash unit => hash * 31 + Int32.ofNat unit.toNat) hash =
      hash * Int32.ofNat (31 ^ units.length) + Int32.ofNat (base31 units) := by
  induction units generalizing hash with
  | nil => simp [base31]
  | cons unit rest ih =>
    have power : Int32.ofNat (31 ^ (rest.length + 1)) = 31 * Int32.ofNat (31 ^ rest.length) := by
      rw [Nat.pow_succ, Nat.mul_comm, Int32.ofNat_mul]
      rfl
    -- a ring identity, once the power is that of the rest
    rw [List.foldl_cons, ih, base31_cons, Int32.ofNat_add, Int32.ofNat_mul, List.length_cons, power]
    grind

theorem textHash_eq_signedHash (text : String) : textHash text = signedHash text := by
  unfold textHash signedHash
  rw [foldl_hash, Int32.zero_mul, Int32.zero_add]
  apply Int32.toInt.inj
  rw [Int32.toInt_ofNat', Int32.toInt_ofInt]
  exact (Int.bmod_bmod).symm

/-! ### Masks -/

namespace UnitString

/-- The bits that a mask takes from its key, a negative one included. -/
theorem toUInt16_toUInt32 (key : Int32) : key.toUInt32.toUInt16 = UInt16.ofInt key.toInt := by
  have bound := key.toBitVec.isLt
  have signed : key.toInt = if 2 * key.toBitVec.toNat < 2 ^ 32 then (key.toBitVec.toNat : Int)
      else (key.toBitVec.toNat : Int) - 2 ^ 32 := by
    simpa using BitVec.toInt_eq_toNat_cond key.toBitVec
  have low : key.toUInt32.toUInt16.toNat = key.toBitVec.toNat % 2 ^ 16 := rfl
  apply UInt16.toNat.inj
  rw [UInt16.ofInt, UInt16.toNat_ofNat', signed, low]
  split <;> omega

/-- A mask takes itself off. -/
theorem mask_mask (value : UnitString) (key : Int32) : (value.mask key).mask key = value := by
  have undone : ((· ^^^ key.toUInt32.toUInt16) ∘ (· ^^^ key.toUInt32.toUInt16)) =
      (id : UInt16 → UInt16) := by
    funext unit
    exact (UInt16.xor_assoc _ _ _).trans ((congrArg _ UInt16.xor_self).trans UInt16.xor_zero)
  simp only [mask, List.map_map, undone, List.map_id]

end UnitString

namespace Cipher

/-! ### The number inside a helper -/

/-- The number between two exclusive ors, if the instructions begin with these
three. -/
def keyAhead? : List Instruction → Option Int32
  | .bitwise .int .xor :: .intConst key :: .bitwise .int .xor :: _ => some key
  | _ => none

/-- The first number between two exclusive ors, and zero if there is none. -/
def firstKey : List Instruction → Int32
  | [] => 0
  | first :: rest => (keyAhead? (first :: rest)).getD (firstKey rest)

theorem keyAhead?_eq_some {code : List Instruction} {key : Int32} :
    keyAhead? code = some key ↔
      ∃ rest, code = .bitwise .int .xor :: .intConst key :: .bitwise .int .xor :: rest := by
  constructor
  · intro found
    unfold keyAhead? at found
    split at found
    · cases found
      exact ⟨_, rfl⟩
    · cases found
  · rintro ⟨rest, rfl⟩
    rfl

/-- What a helper is searched for, node by node. -/
def windowKey? (helper : Listing Instruction) (id : NodeId) : Option Int32 :=
  match helper.window 3 id with
  | some [(_, .bitwise .int .xor), (_, .intConst key), (_, .bitwise .int .xor)] => some key
  | _ => none

/-- The window at a live node shows what the live instructions begin with from there
on. -/
theorem windowKey?_eq_keyAhead? {helper : Listing Instruction}
    {front back : List (NodeId × Instruction)} {id : NodeId} {content : Instruction}
    (split : helper.items = front ++ (id, content) :: back) :
    windowKey? helper id = keyAhead? (content :: back.map (·.2)) := by
  refine Option.ext fun key => ?_
  rw [keyAhead?_eq_some]
  constructor
  · intro found
    unfold windowKey? at found
    split at found
    · rename_i headId numberId number lastId window
      cases found
      obtain ⟨_, _, before, after, same, _, whole⟩ := Listing.split_of_window window
      cases same
      have here : helper.items = before ++ (id, .bitwise .int .xor) ::
          ((numberId, .intConst key) :: (lastId, .bitwise .int .xor) :: after) := by
        simpa using whole
      obtain ⟨_, rfl, rfl⟩ := Listing.split_unique split here
      exact ⟨_, rfl⟩
    · cases found
  · rintro ⟨rest, same⟩
    obtain ⟨rfl, behind⟩ := List.cons.inj same
    obtain ⟨⟨numberId, _⟩, _, rfl, rfl, last⟩ := List.map_eq_cons_iff.mp behind
    obtain ⟨⟨lastId, _⟩, after, rfl, rfl, _⟩ := List.map_eq_cons_iff.mp last
    have whole : helper.items = front ++ ((id, .bitwise .int .xor) ::
        [(numberId, .intConst key), (lastId, .bitwise .int .xor)]) ++ after := by
      simpa using split
    have window := Listing.window_of_split whole
    simp only [List.length_cons, List.length_nil, Nat.zero_add, Nat.reduceAdd] at window
    simp only [windowKey?, window]

/-- The search through the nodes of a helper comes upon the first key among its live
instructions. -/
theorem embeddedKey_eq_firstKey (helper : Listing Instruction) :
    embeddedKey helper = firstKey helper.toList := by
  -- along the nodes that are left, with those already passed in front of them
  have onward (back front : List (NodeId × Instruction)) (split : helper.items = front ++ back) :
      (back.findSome? fun entry => windowKey? helper entry.1).getD 0 =
        firstKey (back.map (·.2)) := by
    induction back generalizing front with
    | nil => rfl
    | cons entry back ih =>
      have rest := ih (front ++ [entry]) (by simpa using split)
      rw [List.findSome?_cons, windowKey?_eq_keyAhead? split, List.map_cons, firstKey]
      cases keyAhead? (entry.2 :: back.map (·.2)) with
      | some key => rfl
      | none => exact rest
  exact onward helper.items [] rfl

/-- The key of the strings that the initializer of a class stores through a helper with
the given name and instructions. -/
def tableKey (className helperName : String) (code : List Instruction) : Int32 :=
  signedHash (dottedName className) ^^^ signedHash "<clinit>" ^^^ signedHash helperName ^^^
    firstKey code

theorem effectiveKey_eq_tableKey (className helperName : String) (helper : Listing Instruction) :
    effectiveKey className helperName (embeddedKey helper) =
      tableKey className helperName helper.toList := by
  rw [effectiveKey, tableKey, embeddedKey_eq_firstKey, textHash_eq_signedHash,
    textHash_eq_signedHash, textHash_eq_signedHash]
  rfl

/-- A string of a table without its mask. -/
def unmasked (className helperName : String) (code : List Instruction) (cipher : UnitString) :
    UnitString :=
  ⟨cipher.units.map (· ^^^ UInt16.ofInt (tableKey className helperName code).toInt)⟩

theorem decrypt_eq_unmasked (className helperName : String) (helper : Listing Instruction)
    (cipher : UnitString) :
    decrypt className helperName helper cipher =
      unmasked className helperName helper.toList cipher := by
  rw [decrypt, effectiveKey_eq_tableKey, UnitString.mask, unmasked, UnitString.toUInt16_toUInt32]

/-- A text whose units were masked with the low half of the key of its table comes back
exactly. Of whatever is unmasked, what cannot be read is what has a lone surrogate, and
what can be read has the units it was read from. -/
theorem masked_text_recovered (className helperName : String) (helper : Listing Instruction)
    (cipher : UnitString) :
    (∀ text : String,
      cipher.units = (UnitString.ofText text).units.map
        (· ^^^ UInt16.ofInt (tableKey className helperName helper.toList).toInt) →
      (decrypt className helperName helper cipher).toText? = some text) ∧
    ((decrypt className helperName helper cipher).toText? = none ↔
      LoneSurrogateIn (decrypt className helperName helper cipher).units) ∧
    ∀ text : String, (decrypt className helperName helper cipher).toText? = some text →
      UnitString.ofText text = decrypt className helperName helper cipher := by
  refine ⟨fun text masked => ?_, UnitString.toText?_eq_none_iff,
    fun text => UnitString.ofText_of_toText?⟩
  rw [← UnitString.toUInt16_toUInt32, ← effectiveKey_eq_tableKey] at masked
  have same : cipher =
      (UnitString.ofText text).mask (effectiveKey className helperName (embeddedKey helper)) :=
    congrArg UnitString.mk masked
  rw [decrypt, same, UnitString.mask_mask, UnitString.toText?_ofText]

/-- A helper with two keys, the first of them negative and with a vacant slot in front of
it. -/
def thinnedHelper : Listing Instruction :=
  (Listing.ofList [.bitwise .int .xor, .plain (.plain .nop), .intConst (-70000),
    .bitwise .int .xor, .intConst 5, .bitwise .int .xor]).remove 1

theorem thinnedHelper_recovers :
    tableKey "demo/Snow" "unmask" thinnedHelper.toList = -1833822222 ∧
    (decrypt "demo/Snow" "unmask" thinnedHelper ⟨[5915, 53198, 51418]⟩).toText? = some "é🌨" ∧
    UnitString.ofText "é🌨" =
      decrypt "demo/Snow" "unmask" thinnedHelper ⟨[5915, 53198, 51418]⟩ := by
  have dotted : dottedName "demo/Snow" = "demo.Snow" := by decide +kernel
  have key : tableKey "demo/Snow" "unmask" thinnedHelper.toList = -1833822222 := by
    rw [← effectiveKey_eq_tableKey, effectiveKey, dotted]
    decide +kernel
  obtain ⟨recovers, _, back⟩ :=
    masked_text_recovered "demo/Snow" "unmask" thinnedHelper ⟨[5915, 53198, 51418]⟩
  have read := recovers "é🌨" (by rw [key]; decide +kernel)
  exact ⟨key, read, back _ read⟩

end Cipher

end LiteralRecovery
