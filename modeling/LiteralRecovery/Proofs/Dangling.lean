import LiteralRecovery.Proofs.Tidy

/-! Nothing that cleanup deletes is referred to afterwards. -/
namespace LiteralRecovery

/-- The same method later on: its name, its descriptor and its declaration but
for local variable tables, in a listing that has only lost nodes. -/
structure Method.Continues (earlier later : Method) : Prop where
  name : later.name = earlier.name
  descriptor : later.descriptor = earlier.descriptor
  info : later.info =
    { earlier.info with attributes := earlier.info.attributes.map Cleanup.clearAttribute }
  code : Listing.Thins earlier.code later.code

namespace Cleanup

open Listing

variable {origin : Class} {initial method : Method} {settled : Listing Instruction}
variable {state : RecoveryState} {front back : List Method} {key : MemberKey}

/-- Once a walk finds no allocation of a removed table, nothing refers to one. -/
theorem unreferenced_of_settled
    (tidy : Tidy origin initial settled state.cls state.removedFields front method back)
    (here : state.initializer = front.length)
    (skipped : ∀ id ∈ state.initializerCode.ids,
      step (isRemoved state) state.initializerCode id = .skip)
    (gone : state.removedFields.contains key = true) :
    ∀ other ∈ state.cls.methods, ∀ instruction ∈ other.code.toList,
      isReference (key.owned origin.name) instruction = false := by
  obtain ⟨elsewhere, inside⟩ := tidy.orphans key gone
  have codeHere := tidy.code_here here
  intro other member instruction found
  rw [tidy.located.split, List.mem_append, List.mem_cons] at member
  rcases member with early | rfl | late
  · exact elsewhere other (by simp [early]) instruction found
  · obtain ⟨id, held⟩ := mem_toList.mp found
    by_contra refers
    have counted : id ∈ referenceIds other.code (key.owned origin.name) := by
      rw [mem_referenceIds, held]
      cases instruction <;> simp_all [isReference]
    obtain ⟨sizeId, newId, size, kind, stands⟩ := inside id counted
    have live : sizeId ∈ other.code.ids := mem_ids.mpr
      (isLive_iff.mpr ⟨_, stands_live stands (sizeId, .intConst size) (by simp)⟩)
    have target : isRemoved state (key.owned origin.name) = true :=
      decide_eq_true ⟨tidy.name.symm, gone⟩
    have changed := step_eq_change.mpr
      ⟨size, kind, key.owned origin.name, newId, id, stands, target, rfl⟩
    rw [codeHere] at skipped
    rw [skipped sizeId live] at changed
    cases changed
  · exact elsewhere other (by simp [late]) instruction found

theorem code_of_clearLocals {cls : Class} {method : Method}
    (member : method ∈ (clearLocals cls).methods) :
    ∃ earlier ∈ cls.methods, method.code = earlier.code := by
  obtain ⟨earlier, present, rfl⟩ := List.mem_map.mp member
  exact ⟨earlier, present, rfl⟩

/-- Nothing refers to what recovery deletes: no remaining method reads or
writes a field that is gone or calls a method that is gone, and the first static
initializer is still there and still the first. -/
theorem recover_leaves_nothing_dangling (options : Options) (cls : Class) (stats : Stats)
    (fine : (recover options cls).result = .ok stats) :
    (∀ key ∈ cls.fields.map Field.key, key ∉ (recover options cls).cls.fields.map Field.key →
      ∀ method ∈ (recover options cls).cls.methods, ∀ instruction ∈ method.code.toList,
        instruction ≠ .getStatic (key.owned cls.name) ∧
          instruction ≠ .putStatic (key.owned cls.name)) ∧
    (∀ key ∈ cls.methods.map Method.key, key ∉ (recover options cls).cls.methods.map Method.key →
      ∀ method ∈ (recover options cls).cls.methods, ∀ instruction ∈ method.code.toList,
        ∀ onInterface, instruction ≠ .invokeStatic (key.owned cls.name) onInterface) ∧
    ∀ position method, cls.initializer? = some position → cls.methods[position]? = some method →
      ∃ position' method', (recover options cls).cls.initializer? = some position' ∧
        (recover options cls).cls.methods[position']? = some method' ∧
        method.Continues method' := by
  cases found : cls.initializer? with
  | none =>
    have same : (recover options cls).cls = cls := by simp [recover, found]
    rw [same]
    exact ⟨fun key known gone => absurd known gone, fun key known gone => absurd known gone,
      fun _ _ none => by cases none⟩
  | some position =>
    obtain ⟨front, method, back, located, rfl⟩ := initializerAt_of_found found
    obtain ⟨_, last, front', method', back', _, tidy, here, skipped, final, _⟩ :=
      recover_tidy located fine
    rw [final]
    refine ⟨?_, ?_, ?_⟩
    · intro key known gone caller member instruction inside
      obtain ⟨earlier, present, code⟩ := code_of_clearLocals member
      have clean := unreferenced_of_settled tidy here skipped (tidy.declared key known gone)
        earlier present instruction (code ▸ inside)
      constructor <;> rintro rfl <;> simp [isReference] at clean
    · intro key known gone caller member instruction inside onInterface
      obtain ⟨earlier, present, code⟩ := code_of_clearLocals member
      have absent : key ∉ last.cls.methods.map Method.key := by
        rw [methods_clearLocals, List.map_map] at gone
        exact gone
      have clean := tidy.uncalled key known absent earlier present instruction (code ▸ inside)
      rintro rfl
      simp [isCall, MemberKey.owned, MemberRef.key] at clean
    · intro position original same held
      cases same
      rw [located.split, List.getElem?_append_right (Nat.le_refl _), Nat.sub_self] at held
      cases held
      have located' := located_clearLocals tidy.located
      refine ⟨_, clearMethod method', located'.found, ?_, ?_⟩
      · simp [located'.split]
      · obtain ⟨declaration, thins⟩ := tidy.continued
        simp only [Method.declaration, Prod.mk.injEq] at declaration
        obtain ⟨name, descriptor, info⟩ := declaration
        exact ⟨name, descriptor, by simp [clearMethod, info], thins⟩

/-- A class with a table of numbers, and a table of strings that `unmask` fills
and of which one entry is read. -/
def twoTables : Class :=
  let numbers : MemberRef := ⟨"Two", "numbers", "[I"⟩
  let words : MemberRef := ⟨"Two", "words", "[Ljava/lang/String;"⟩
  let unmask : MemberRef := ⟨"Two", "unmask", "(Ljava/lang/String;)Ljava/lang/String;"⟩
  .ofMembers "Two" [numbers.key, words.key]
    [(⟨initializerName, "()V"⟩,
      [.intConst 1, .newArray .int, .putStatic numbers,
       .getStatic numbers, .intConst 0, .intConst 42, .arrayStore .int,
       .intConst 2, .newArray (.reference "java/lang/String"), .putStatic words,
       .getStatic words, .intConst 0, .stringConst (.ofText "ab"), .invokeStatic unmask false,
       .arrayStore .reference,
       .getStatic words, .intConst 1, .stringConst (.ofText "cd"), .invokeStatic unmask false,
       .arrayStore .reference,
       .plain (.plain .returnVoid)]),
     (unmask.key, [.bitwise .int .xor, .intConst 7, .bitwise .int .xor, .plain (.plain .areturn)]),
     (⟨"main", "()V"⟩,
      [.getStatic words, .intConst 0, .arrayLoad .reference,
       .getStatic numbers, .intConst 0, .arrayLoad .int, .plain (.plain .returnVoid)])]

theorem twoTables_nothing_dangling :
    (recover ⟨.combine⟩ twoTables).result = .ok ⟨0, 1, 0, 1, 0, 1, 2, 1, 2⟩ ∧
    (recover ⟨.combine⟩ twoTables).cls.fields = [] ∧
    (∀ method ∈ (recover ⟨.combine⟩ twoTables).cls.methods, ∀ instruction ∈ method.code.toList,
      instruction ≠ .getStatic ⟨"Two", "numbers", "[I"⟩) ∧
    (recover ⟨.combine⟩ twoTables).cls.methods.map (·.name) = ["<clinit>", "main"] ∧
    ∀ method ∈ (recover ⟨.combine⟩ twoTables).cls.methods, ∀ instruction ∈ method.code.toList,
      ∀ onInterface, instruction ≠ .invokeStatic
        ⟨"Two", "unmask", "(Ljava/lang/String;)Ljava/lang/String;"⟩ onInterface := by
  have fine : (recover ⟨.combine⟩ twoTables).result = .ok ⟨0, 1, 0, 1, 0, 1, 2, 1, 2⟩ := rfl
  obtain ⟨unread, uncalled, _⟩ := recover_leaves_nothing_dangling ⟨.combine⟩ twoTables _ fine
  refine ⟨fine, rfl, ?_, rfl, ?_⟩
  · intro method member instruction inside
    exact (unread ⟨"numbers", "[I"⟩ (by decide) (by decide +kernel) method member instruction
      inside).1
  · exact uncalled ⟨"unmask", "(Ljava/lang/String;)Ljava/lang/String;"⟩ (by decide)
      (by decide +kernel)

end Cleanup

end LiteralRecovery
