import LiteralRecovery.Proofs.SchemeCleanup

/-! Recovery from end to end. A class that fits a scheme is recovered without
error, and what comes out is what the scheme computes: one constant for every
use, and no trace of the tables and helpers that the constants came from. -/
namespace LiteralRecovery.Scheme

open Cleanup

variable {scheme : Scheme} {cls : Class}

/-- What cleanup leaves at the end of the last pass. -/
theorem cleared_run {position : Nat} {resolved : RecoveryState} (fits : scheme.Fits cls)
    (located : cls.initializer? = some position)
    (outcome : Resolved scheme cls position resolved) :
    Cleared scheme cls (scheme.entries.filter (scheme.stays cls)) (scheme.takesTable cls)
      (scheme.takesHelper cls) (Pass.allocations.run ⟨.combine⟩ (removeMarked resolved)).1 := by
  -- the invariant of the last pass: all that stays is there, and no store into a table that goes
  obtain ⟨last, ⟨⟨live, left, cleared⟩, here⟩, settled⟩ :=
    Pass.allocations.run_settles ⟨.combine⟩
      (fun state => (∃ live, Left scheme cls (scheme.takesTable cls) live ∧
        Cleared scheme cls live (scheme.takesTable cls) (scheme.takesHelper cls) state) ∧
        state.cls.initializer? = some state.initializer)
      (fun _ _ ⟨⟨live, left, cleared⟩, here⟩ => ⟨⟨live, left, cleared.name, cleared.located,
        cleared.fields, cleared.methods, cleared.bodies, cleared.removed⟩, here⟩)
      (fun _ ⟨⟨_, left, cleared⟩, here⟩ => cleared_scan left cleared here)
      (cleared_removeMarked fits located outcome) (Pass.run_fine _ _ _ (by simp))
  obtain ⟨event, final⟩ := settled.eq
  obtain ⟨front, method, back, located', _⟩ := cleared.located
  have all : live = scheme.entries.filter (scheme.stays cls) := by
    refine left.eq_of_still ?_ ?_ (Pass.allocations_still settled.2.1).2
    · rw [(initializer_here located' here).2, cleared.view located']
    · intro table taken
      exact decide_eq_true ⟨cleared.name.symm, (cleared.removed table).trans taken⟩
  rw [final, ← all]
  exact ⟨cleared.name, cleared.located, cleared.fields, cleared.methods, cleared.bodies,
    cleared.removed⟩

/-- Recovery of a class that fits a scheme succeeds. Tables and helpers that a
value was taken with are gone, unless a store into another table still calls
the helper; every use is one constant; and the initializer has lost exactly the
blocks of the tables that went. -/
theorem recover_of_fits (scheme : Scheme) (cls : Class) (fits : scheme.Fits cls) :
    let recovered := recover ⟨.combine⟩ cls
    (∃ stats, recovered.result = .ok stats) ∧
      recovered.cls.name = cls.name ∧
      recovered.cls.fields = cls.fields.filter (fun field => !scheme.takesTable cls field.key) ∧
      recovered.cls.methods.map (fun method =>
          (method.name, method.descriptor, method.info, method.code.toList)) =
        (cls.methods.filter fun method => !scheme.takesHelper cls method.key).map fun method =>
          (method.name, method.descriptor, (clearMethod method).info,
            if method.name = initializerName then scheme.recoveredInitializer cls
            else scheme.recoveredBody cls method.key) := by
  obtain ⟨front, method, back, located, _⟩ := fits.initializer
  obtain ⟨resolved, ran, outcome⟩ := runAll_resolved fits located.found
  have cleared := cleared_run fits located.found outcome
  rw [recover_eq located.found ran]
  generalize (Pass.allocations.run ⟨.combine⟩ (removeMarked resolved)).1 = cleaned at cleared
  refine ⟨⟨_, rfl⟩, cleared.name, cleared.fields, ?_⟩
  -- all that a method comes to is decided by its declaration
  let finish (declaration : String × String × MemberInfo) :
      String × String × MemberInfo × List Instruction :=
    (declaration.1, declaration.2.1,
      { declaration.2.2 with attributes := declaration.2.2.attributes.map clearAttribute },
      scheme.bodyOf cls (scheme.entries.filter (scheme.stays cls))
        ⟨declaration.1, declaration.2.1⟩)
  calc (clearLocals cleaned.cls).methods.map (fun method =>
          (method.name, method.descriptor, method.info, method.code.toList))
      = cleaned.cls.methods.map (finish ∘ Method.declaration) := by
        rw [methods_clearLocals, List.map_map]
        refine List.map_congr_left fun method member => ?_
        exact congrArg (fun body =>
          (method.name, method.descriptor, (clearMethod method).info, body))
          (cleared.bodies method member)
    _ = (cls.methods.filter fun method => !scheme.takesHelper cls method.key).map
          (finish ∘ Method.declaration) := by
        rw [← List.map_map, cleared.methods, List.map_map]
    _ = _ := rfl

/-- A table of numbers and one of words that a method reads, and a table that
nothing reads. -/
def vault : Scheme where
  kindOf table :=
    if table.name = "numbers" then .int else if table.name = "words" then .reference else .long
  blocks :=
    [.allocate 2 .int ⟨"numbers", "[I"⟩,
     .store ⟨"numbers", "[I"⟩ (.combine .xor (.constant 3) (.constant 2))
       (.int (.combine .or (.constant 8) (.combine .and (.constant 5) (.constant 3)))),
     .store ⟨"numbers", "[I"⟩ (.constant 1) (.int (.constant 77)),
     .allocate 1 (.reference "java/lang/String") ⟨"words", "[Ljava/lang/String;"⟩,
     .store ⟨"words", "[Ljava/lang/String;"⟩ (.constant 0)
       (.string ⟨[60867, 60866]⟩
         ⟨"unmask", "(Ljava/lang/String;)Ljava/lang/String;"⟩ false),
     .store ⟨"spare", "[J"⟩ (.constant 0) (.long (.combine .xor (.constant 6) (.constant 5))),
     .other (.plain .returnVoid)]
  parts method :=
    if method.name = "read" then
      [.use ⟨"numbers", "[I"⟩ 1, .use ⟨"numbers", "[I"⟩ 1, .use ⟨"numbers", "[I"⟩ 0,
       .use ⟨"words", "[Ljava/lang/String;"⟩ 0, .other (.plain (.plain .returnVoid))]
    else
      [.other (.bitwise .int .xor), .other (.intConst 21), .other (.bitwise .int .xor),
       .other (.plain (.plain .areturn))]

/-- A class that fits `vault`. -/
def vaultClass : Class :=
  .ofMembers "Vault" [⟨"numbers", "[I"⟩, ⟨"words", "[Ljava/lang/String;"⟩, ⟨"spare", "[J"⟩]
    ((⟨initializerName, "()V"⟩, vault.blocks.flatMap (Block.code "Vault" Expr.code Expr.code)) ::
      [⟨"read", "()V"⟩, ⟨"unmask", "(Ljava/lang/String;)Ljava/lang/String;"⟩].map fun key =>
        (key, (vault.parts key).flatMap (Part.code "Vault" vault.kindOf)))

theorem vaultClass_recovered :
    vault.Fits vaultClass ∧
      (recover ⟨.combine⟩ vaultClass).cls.fields.map Field.key = [⟨"spare", "[J"⟩] ∧
      (recover ⟨.combine⟩ vaultClass).cls.methods.map
          (fun method => (method.name, method.code.toList)) =
        [(initializerName,
          [.getStatic ⟨"Vault", "spare", "[J"⟩, .intConst 0, .longConst 3, .arrayStore .long,
           .plain (.plain .returnVoid)]),
         ("read", [.intConst 9, .intConst 9, .intConst 0, .stringConst (.ofText "hi"),
           .plain (.plain .returnVoid)])] := by
  have fits : vault.Fits vaultClass := by
    refine ⟨by decide, by decide, ?_, ?_, ?_, ?_⟩
    · refine ⟨[], _, _, ⟨rfl, rfl, by simp⟩, ?_, Listing.toList_ofList _⟩
      decide
    · intro method member named
      simp only [vaultClass, Class.ofMembers, List.map_cons, List.map_nil, List.mem_cons,
        List.not_mem_nil, or_false] at member
      rcases member with rfl | rfl | rfl
      · exact absurd rfl named
      · exact Listing.toList_ofList _
      · exact Listing.toList_ofList _
    · simp [vault, Suits, vaultClass, Class.ofMembers, Field.key, Method.key, Source.kind,
        Source.helper?, Part.slot?, initializerName]
    · simp [vault, Admits, vaultClass, Class.ofMembers, Field.key, Method.key, refersTo,
        initializerName]
  obtain ⟨_, _, fields, methods⟩ := recover_of_fits vault vaultClass fits
  refine ⟨fits, ?_, ?_⟩
  · rw [fields]
    decide +kernel
  · have codes := congrArg (List.map fun entry => (entry.1, entry.2.2.2)) methods
    rw [List.map_map, List.map_map] at codes
    exact codes.trans (by decide +kernel)

end LiteralRecovery.Scheme
