import LiteralRecovery.ClassFile.Decode
import LiteralRecovery.Proofs.InstructionCode

/-! The keys of a switch. A decoded switch has each key once, so comparing its
cases by key, in whatever order, is comparing the cases: code with all keys
distinct is the same as itself, and moved targets that compare the same have
not moved. -/
namespace LiteralRecovery

namespace Bytecode

variable {code : Bytecode} {place : Nat → Nat} {cases : List (Int32 × Int32)}

/-- The keys of a switch by key differ from one another. -/
def DistinctCases : Bytecode → Prop
  | .lookupswitch _ cases => (cases.map (·.1)).Nodup
  | _ => True

theorem lookup_of_mem (distinct : (cases.map (·.1)).Nodup) {entry : Int32 × Int32}
    (member : entry ∈ cases) : cases.lookup entry.1 = some entry.2 := by
  induction cases with
  | nil => cases member
  | cons first rest ih =>
    obtain ⟨fresh, distinct⟩ := List.nodup_cons.mp distinct
    rcases List.mem_cons.mp member with rfl | behind
    · exact List.lookup_cons_self
    · have differs : (entry.1 == first.1) = false := by
        apply beq_eq_false_iff_ne.mpr
        intro same
        exact fresh (List.mem_map.mpr ⟨entry, behind, same⟩)
      rw [List.lookup_cons, differs]
      exact ih distinct behind

theorem same_self (distinct : code.DistinctCases) : code.same code = true := by
  cases code with
  | lookupswitch fallback cases =>
    simp only [same, sameCases, decide_true, Bool.true_and, List.all_eq_true, decide_eq_true_eq]
    exact fun entry member => lookup_of_mem distinct member
  | _ => simp [same]

theorem sameCode_self {codes : List Bytecode} (distinct : ∀ code ∈ codes, code.DistinctCases) :
    sameCode codes codes = true := by
  have diagonal : codes.zip codes = codes.map fun code => (code, code) := by
    simpa using @List.zip_map' _ _ _ id id codes
  simp only [sameCode, decide_true, Bool.true_and, diagonal, List.all_map, List.all_eq_true]
  exact fun code member => same_self (distinct code member)

/-- Targets that were moved and still compare the same are where they were. -/
theorem mapTargets_eq_of_same (distinct : code.DistinctCases)
    (unmoved : (code.mapTargets place).same code = true) : code.mapTargets place = code := by
  cases code with
  | lookupswitch fallback cases =>
    simp only [mapTargets, same, sameCases, Bool.and_eq_true, decide_eq_true_eq,
      List.all_eq_true] at unmoved ⊢
    obtain ⟨fixed, -, kept⟩ := unmoved
    rw [fixed]
    congr 1
    conv_rhs => rw [← List.map_id cases]
    apply List.map_congr_left
    intro entry member
    have moved := kept _ (List.mem_map_of_mem member)
    rw [lookup_of_mem distinct member, Option.some.injEq] at moved
    exact Prod.ext rfl moved.symm
  | branch op target => simpa [mapTargets, same] using unmoved
  | branchWide op target => simpa [mapTargets, same] using unmoved
  | tableswitch fallback low high targets => simpa [mapTargets, same] using unmoved
  | _ => rfl

/-! ### Decoding -/

private theorem map_fst_addCase (cases : List (Int32 × Int32)) (key target : Int32) :
    (addCase cases key target).map (·.1) =
      if key ∈ cases.map (·.1) then cases.map (·.1) else cases.map (·.1) ++ [key] := by
  have listed : cases.any (·.1 = key) = true ↔ key ∈ cases.map (·.1) := by
    simp [List.any_eq_true]
  unfold addCase
  by_cases known : key ∈ cases.map (·.1)
  · rw [if_pos (listed.mpr known), if_pos known, List.map_map]
    apply List.map_congr_left
    intro entry _
    simp only [Function.comp_def]
    split <;> rfl
  · rw [if_neg (fun any => known (listed.mp any)), if_neg known, List.map_append]
    rfl

theorem nodup_addCases (added : List (Int32 × Int32)) (distinct : (cases.map (·.1)).Nodup) :
    ((added.foldl (fun cases entry => addCase cases entry.1 entry.2) cases).map (·.1)).Nodup := by
  induction added generalizing cases with
  | nil => exact distinct
  | cons entry rest ih =>
    apply ih
    rw [map_fst_addCase]
    split
    · exact distinct
    · rename_i fresh
      exact List.nodup_append.mpr ⟨distinct, List.nodup_singleton _, by
        intro known member other same
        rw [List.mem_singleton.mp same]
        exact fun equal => fresh (equal ▸ member)⟩

section MapM

variable {α β γ : Type} {f : α → Option β} {items : List α} {results : List β}

private theorem mapM_cons_eq_some {first : α} :
    (first :: items).mapM f = some results ↔
      ∃ result others, f first = some result ∧ items.mapM f = some others ∧
        results = result :: others := by
  simp only [List.mapM_cons, bind, pure, Option.bind_eq_some_iff, Option.some.injEq]
  constructor
  · rintro ⟨result, here, others, behind, rfl⟩
    exact ⟨result, others, here, behind, rfl⟩
  · rintro ⟨result, others, here, behind, rfl⟩
    exact ⟨result, here, others, behind, rfl⟩

private theorem exists_of_mem_mapM (mapped : items.mapM f = some results) :
    ∀ result ∈ results, ∃ item ∈ items, f item = some result := by
  induction items generalizing results with
  | nil =>
    cases mapped
    simp
  | cons first rest ih =>
    obtain ⟨result, others, here, behind, rfl⟩ := mapM_cons_eq_some.mp mapped
    refine List.forall_mem_cons.mpr ⟨⟨first, List.mem_cons_self, here⟩, fun other member => ?_⟩
    obtain ⟨item, inside, found⟩ := ih behind other member
    exact ⟨item, List.mem_cons_of_mem _ inside, found⟩

private theorem map_eq_of_mapM {key : α → γ} {key' : β → γ}
    (keeps : ∀ item result, f item = some result → key' result = key item)
    (mapped : items.mapM f = some results) : results.map key' = items.map key := by
  induction items generalizing results with
  | nil =>
    cases mapped
    rfl
  | cons first rest ih =>
    obtain ⟨result, others, here, behind, rfl⟩ := mapM_cons_eq_some.mp mapped
    rw [List.map_cons, List.map_cons, keeps _ _ here, ih behind]

end MapM

theorem distinct_toIndexes {layout : CodeLayout} {index offset : Nat} {result : Bytecode}
    (turned : code.toIndexes layout index offset = some result) : result.DistinctCases := by
  cases code with
  | lookupswitch fallback cases =>
    simp only [toIndexes, bind, Option.bind_eq_some_iff] at turned
    obtain ⟨moved, mapped, fallback, _, same⟩ := turned
    cases same
    have keys : moved.map (·.1) =
        (cases.foldl (fun cases entry => addCase cases entry.1 entry.2) []).map (·.1) := by
      refine map_eq_of_mapM (fun entry result turned => ?_) mapped
      obtain ⟨_, _, same⟩ := Option.bind_eq_some_iff.mp turned
      cases same
      rfl
    rw [DistinctCases, keys]
    exact nodup_addCases cases List.nodup_nil
  | branch op target =>
    obtain ⟨_, _, same⟩ := Option.bind_eq_some_iff.mp turned
    cases same
    trivial
  | branchWide op target =>
    obtain ⟨_, _, same⟩ := Option.bind_eq_some_iff.mp turned
    cases same
    trivial
  | tableswitch fallback low high targets =>
    obtain ⟨_, _, rest⟩ := Option.bind_eq_some_iff.mp turned
    obtain ⟨_, _, same⟩ := Option.bind_eq_some_iff.mp rest
    cases same
    trivial
  | _ =>
    cases turned
    trivial

end Bytecode

theorem distinct_decodeCode {bytes : Bytes} {code : List Bytecode} {layout : CodeLayout}
    (decoded : decodeCode bytes = some (code, layout)) :
    ∀ instruction ∈ code, instruction.DistinctCases := by
  obtain ⟨placed, _, rest⟩ := Option.bind_eq_some_iff.mp decoded
  split at rest
  · cases rest
  · obtain ⟨turned, mapped, same⟩ := Option.bind_eq_some_iff.mp rest
    cases same
    intro instruction member
    obtain ⟨_, _, turned⟩ := Bytecode.exists_of_mem_mapM mapped instruction member
    exact Bytecode.distinct_toIndexes turned

/-! ### Whole files -/

namespace Reader

variable {α β : Type} {holds : α → Prop} {holds' : β → Prop}

/-- Whatever the bytes, what is read has the property. -/
def Ensures (reader : Reader α) (holds : α → Prop) : Prop :=
  ∀ bytes result rest, reader bytes = some (result, rest) → holds result

theorem ensures_bind {reader : Reader α} {next : α → Reader β} (first : reader.Ensures holds)
    (second : ∀ value, holds value → (next value).Ensures holds') :
    Ensures (reader >>= next) holds' := by
  intro bytes result rest found
  obtain ⟨⟨value, between⟩, here, behind⟩ := Option.bind_eq_some_iff.mp found
  exact second value (first bytes value between here) between result rest behind

/-- A step of which nothing has to be known. -/
theorem ensures_then {reader : Reader α} {next : α → Reader β}
    (second : ∀ value, (next value).Ensures holds') : Ensures (reader >>= next) holds' :=
  ensures_bind (fun _ _ _ _ => trivial) fun value (_ : True) => second value

theorem ensures_pure {value : α} (known : holds value) : Ensures (pure value) holds := by
  intro bytes result rest found
  cases found
  exact known

theorem ensures_liftM {outcome : Option α} (known : ∀ value, outcome = some value → holds value) :
    Ensures (liftM outcome) holds := by
  intro bytes result rest found
  obtain ⟨value, held, same⟩ := Option.bind_eq_some_iff.mp found
  cases same
  exact known _ held

private theorem ensures_timesOnto {reader : Reader α} (each : reader.Ensures holds) (count : Nat)
    {done : List α} (before : ∀ item ∈ done, holds item) :
    Ensures (timesOnto reader count done) fun items => ∀ item ∈ items, holds item := by
  intro bytes result rest found
  induction count generalizing done bytes with
  | zero =>
    cases found
    simpa using before
  | succ count ih =>
    simp only [timesOnto] at found
    split at found
    · rename_i item between here
      exact ih (List.forall_mem_cons.mpr ⟨each _ _ _ here, before⟩) _ found
    · cases found

theorem ensures_counted {reader : Reader α} (each : reader.Ensures holds) :
    Ensures (counted reader) fun items => ∀ item ∈ items, holds item :=
  ensures_then fun count => ensures_timesOnto each count.toNat (by simp)

end Reader

namespace MemberInfo

/-- The code of a method as declared; none without a body. -/
def code (info : MemberInfo) : List Bytecode := (info.body?.map (·.code)).getD []

end MemberInfo

/-- In the code of every method the keys of a switch are distinct. -/
def ClassFile.DistinctCases (file : ClassFile) : Prop :=
  ∀ info ∈ file.methods, ∀ code ∈ info.code, code.DistinctCases

namespace Decode

open Reader

/-- The keys of switches are distinct in the body that an attribute holds. -/
def BodyDistinct (held : Attribute) : Prop :=
  ∀ body, held.body? = some body → ∀ code ∈ body.code, code.DistinctCases

theorem ensures_codeBody (inner : Reader Attribute) :
    (codeBody inner).Ensures fun body => ∀ code ∈ body.code, code.DistinctCases := by
  refine ensures_then fun maxStack => ensures_then fun maxLocals => ensures_then fun length =>
    ensures_then fun bytes => ?_
  refine ensures_bind (ensures_liftM fun _ decoded => distinct_decodeCode decoded)
    fun decoded distinct => ?_
  exact ensures_then fun ranges => ensures_then fun turned => ensures_then fun attributes =>
    ensures_then fun moved => ensures_pure distinct

theorem ensures_attributeInfo (pool : ConstantPool) (depth : Nat) :
    (attributeInfo pool depth).Ensures BodyDistinct := by
  cases depth with
  | zero =>
    intro bytes result rest found
    cases found
  | succ depth =>
    refine ensures_then fun name => ensures_then fun length => ensures_then fun title =>
      ensures_then fun _ => ?_
    split
    · refine ensures_bind (ensures_codeBody _) fun body distinct => ensures_pure ?_
      rintro _ ⟨⟩
      exact distinct
    · refine ensures_then fun components => ensures_pure ?_
      rintro _ ⟨⟩
    · refine ensures_then fun table => ensures_pure ?_
      rintro _ ⟨⟩

theorem ensures_member (flags : UInt16) (pool : ConstantPool) (depth : Nat) :
    (member flags pool depth).Ensures fun info => ∀ code ∈ info.code, code.DistinctCases := by
  refine ensures_then fun access => ensures_then fun name => ensures_then fun descriptor => ?_
  refine ensures_bind (ensures_counted (ensures_attributeInfo pool depth))
    fun attributes distinct => ensures_pure ?_
  intro code member
  simp only [MemberInfo.code, MemberInfo.body?] at member
  cases found : attributes.findSome? Attribute.body? with
  | none => simp [found] at member
  | some body =>
    obtain ⟨held, inside, holds⟩ := List.exists_of_findSome?_eq_some found
    rw [found] at member
    exact distinct held inside body holds code member

theorem ensures_classFile (depth : Nat) :
    (classFile depth).Ensures ClassFile.DistinctCases := by
  refine ensures_then fun magic => ensures_then fun minor => ensures_then fun major =>
    ensures_then fun _ => ensures_then fun count => ensures_then fun _ => ensures_then fun pool =>
    ensures_then fun _ => ensures_then fun access => ensures_then fun thisClass =>
    ensures_then fun superClass => ensures_then fun interfaces => ensures_then fun fields => ?_
  refine ensures_bind (ensures_counted (ensures_member _ pool depth)) fun methods distinct => ?_
  exact ensures_then fun attributes => ensures_pure distinct

end Decode

/-- Every decoded file has distinct keys in its switches. -/
theorem ClassFile.distinctCases_of_decode? {data : Bytes} {file : ClassFile}
    (decoded : decode? data = some file) : file.DistinctCases := by
  obtain ⟨⟨_, rest⟩, read, rfl⟩ := Option.map_eq_some_iff.mp decoded
  exact Decode.ensures_classFile data.length data _ rest read

end LiteralRecovery
