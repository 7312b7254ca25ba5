import LiteralRecovery.Proofs.SchemeTables

/-! The passes that bring constants back, over a class that fits a scheme. Both
folding passes together turn the blocks of the initializer into entries, and
the table passes start from there. In the end every use has its value, and the
marks say which tables and helpers a value was taken with. -/
namespace LiteralRecovery

namespace Fold

variable {width : Width} {mode : LongFold}

theorem rewrites_flatMap {β : Type} {pieces : List β} {early late : β → List Instruction}
    (each : ∀ piece ∈ pieces,
      Relation.ReflTransGen (Rewrites width mode) (early piece) (late piece)) :
    Relation.ReflTransGen (Rewrites width mode) (pieces.flatMap early) (pieces.flatMap late) := by
  induction pieces with
  | nil => exact .refl
  | cons piece pieces ih =>
    have first := rewrites_within [] (pieces.flatMap early) (each piece List.mem_cons_self)
    have second := rewrites_within (late piece) []
      (ih fun other member => each other (List.mem_cons_of_mem _ member))
    simp only [List.nil_append] at first
    simp only [List.append_nil] at second
    simp only [List.flatMap_cons]
    exact first.trans second

/-- A folding pass changes nothing but the listing of the initializer. -/
theorem run_elsewhere (width : Width) (options : Options) (state : RecoveryState) :
    let final := ((Pass.fold width).run options state).1
    final.frame = state.frame ∧ final.memo = state.memo ∧
      final.markedFields = state.markedFields ∧ final.markedMethods = state.markedMethods ∧
      ∀ number ≠ state.initializer, final.cls.codeAt number = state.cls.codeAt number := by
  refine (Pass.fold width).run_keeps options (fun later => later.frame = state.frame ∧
    later.memo = state.memo ∧ later.markedFields = state.markedFields ∧
    later.markedMethods = state.markedMethods ∧
    ∀ number ≠ state.initializer, later.cls.codeAt number = state.cls.codeAt number)
    (fun _ _ kept => kept) ?_ ⟨rfl, rfl, rfl, rfl, fun _ _ => rfl⟩
  rintro later ⟨frame, memo, fields, methods, codes⟩
  refine ⟨(Pass.scan_frame _ options later).trans frame, memo, fields, methods, ?_⟩
  intro number outside
  rw [← codes number outside]
  exact Class.codeAt_editCode_ne (RecoveryState.frame_initializer frame ▸ outside.symm)

end Fold

namespace Scheme

open StaticTable

section Blocks

variable {ι κ ι' κ' : Type} {owner : String} {width : Width} {mode : LongFold}
variable {intCode : ι → List Instruction} {longCode : κ → List Instruction}
variable {intCode' : ι' → List Instruction} {longCode' : κ' → List Instruction}

/-- A block folds wherever its expressions fold. -/
theorem Block.rewrites (onInt : ι → ι') (onLong : κ → κ')
    (ints : ∀ value, Relation.ReflTransGen (Fold.Rewrites width mode) (intCode value)
      (intCode' (onInt value)))
    (longs : ∀ value, Relation.ReflTransGen (Fold.Rewrites width mode) (longCode value)
      (longCode' (onLong value))) (block : Block ι κ) :
    Relation.ReflTransGen (Fold.Rewrites width mode) (block.code owner intCode longCode)
      ((block.map onInt onLong).code owner intCode' longCode') := by
  cases block with
  | allocate size kind table => exact .refl
  | other code => exact .refl
  | store table index source =>
    have kind : (source.map onInt onLong).kind = source.kind := by cases source <;> rfl
    have first := Fold.rewrites_within [.getStatic (table.owned owner)]
      (source.code owner intCode longCode ++ [.arrayStore source.kind]) (ints index)
    have value : Relation.ReflTransGen (Fold.Rewrites width mode)
        (source.code owner intCode longCode)
        ((source.map onInt onLong).code owner intCode' longCode') := by
      cases source with
      | int value => exact ints value
      | long value => exact longs value
      | string cipher helper onInterface => exact .refl
    have second := Fold.rewrites_within (.getStatic (table.owned owner) :: intCode' (onInt index))
      [.arrayStore source.kind] value
    simp only [Block.code, Block.map, kind]
    simp only [List.append_assoc, List.cons_append, List.nil_append] at first second ⊢
    exact first.trans second

/-- The operations in a block are those in its expressions. -/
theorem Block.bitwise_mem {block : Block ι κ} {op : BitwiseOp}
    (member : .bitwise width op ∈ block.code owner intCode longCode) :
    (∃ value, .bitwise width op ∈ intCode value) ∨ ∃ value, .bitwise width op ∈ longCode value := by
  cases block with
  | allocate size kind table => simp [Block.code] at member
  | other code => simp [Block.code] at member
  | store table index source =>
    simp only [Block.code, List.cons_append, List.mem_cons, reduceCtorEq, List.mem_append,
      List.not_mem_nil, or_false, false_or] at member
    rcases member with inIndex | inSource
    · exact .inl ⟨index, inIndex⟩
    · cases source with
      | int value => exact .inl ⟨value, inSource⟩
      | long value => exact .inr ⟨value, inSource⟩
      | string cipher helper onInterface => simp [Source.code] at inSource

end Blocks

variable {scheme : Scheme} {origin : Class} {position : Nat} {done : ElementKind → Prop}
variable {state : RecoveryState} {table : MemberKey} {index : Int32}

/-- The two folding passes evaluate every expression. -/
theorem fold_entries {owner : String}
    (view : state.initializerCode.toList =
      scheme.blocks.flatMap (Block.code owner Expr.code Expr.code)) :
    ((Pass.fold .int).run ⟨.combine⟩
      ((Pass.fold .long).run ⟨.combine⟩ state).1).1.initializerCode.toList =
        scheme.entries.flatMap (Entry.code owner) := by
  have longs : ((Pass.fold .long).run ⟨.combine⟩ state).1.initializerCode.toList =
      (scheme.blocks.map (Block.map id Expr.eval)).flatMap
        (Block.code owner Expr.code fun value => [.longConst value]) := by
    refine Fold.fold_run_toList ?_ ?_
    · rw [view, List.flatMap_map]
      exact Fold.rewrites_flatMap fun block _ =>
        block.rewrites id Expr.eval (fun _ => .refl) Expr.code_folds
    · intro op member
      obtain ⟨block, _, inside⟩ := List.mem_flatMap.mp member
      rcases Block.bitwise_mem inside with ⟨expr, inside⟩ | ⟨value, inside⟩
      · rcases Expr.mem_code inside with ⟨_, same⟩ | ⟨_, same⟩ <;> cases same
      · simp at inside
  refine Fold.fold_run_toList ?_ ?_
  · have entries : scheme.entries =
        (scheme.blocks.map (Block.map id Expr.eval)).map (Block.map Expr.eval id) := by
      rw [entries, List.map_map]
      refine List.map_congr_left fun block _ => ?_
      rcases block with _ | ⟨_, _, _ | _ | _⟩ | _ <;> rfl
    rw [longs, entries]
    generalize scheme.blocks.map (Block.map id Expr.eval) = blocks
    rw [List.flatMap_map]
    exact Fold.rewrites_flatMap fun block _ =>
      block.rewrites Expr.eval id Expr.code_folds fun _ => .refl
  · intro op member
    obtain ⟨entry, _, inside⟩ := List.mem_flatMap.mp member
    rcases Block.bitwise_mem inside with ⟨value, inside⟩ | ⟨value, inside⟩ <;> simp at inside

/-- What holds when the table passes start. -/
theorem resolving_folded (fits : scheme.Fits origin)
    (located : origin.initializer? = some position) :
    Resolving scheme origin position (fun _ => False)
      ((Pass.fold .int).run ⟨.combine⟩ ((Pass.fold .long).run ⟨.combine⟩
        (RecoveryState.start origin position)).1).1 := by
  obtain ⟨front, initializer, back, located', _, view⟩ := fits.initializer
  rw [located'.found] at located
  cases located
  have here : (RecoveryState.start origin front.length).initializerCode = initializer.code :=
    Class.codeAt_of_split located'.split
  have folded := fold_entries (here ▸ view)
  obtain ⟨frame, memo, fields, methods, codes⟩ :=
    Fold.run_elsewhere .long ⟨.combine⟩ (RecoveryState.start origin front.length)
  generalize ((Pass.fold .long).run ⟨.combine⟩ (RecoveryState.start origin front.length)).1 =
    middle at *
  obtain ⟨frame', memo', fields', methods', codes'⟩ := Fold.run_elsewhere .int ⟨.combine⟩ middle
  generalize ((Pass.fold .int).run ⟨.combine⟩ middle).1 = final at *
  rw [memo] at memo'
  rw [fields] at fields'
  rw [methods] at methods'
  have code (number : Nat) (method : Method) (present : origin.methods[number]? = some method)
      (outside : number ≠ front.length) : final.cls.codeAt number = method.code := by
    rw [codes' number (RecoveryState.frame_initializer frame ▸ outside), codes number outside]
    simp [RecoveryState.start, Class.codeAt, present]
  refine ⟨frame'.trans frame, ?_, ?_, ?_, ?_, ?_, ?_⟩
  · exact ⟨scheme.entries, folded, ⟨List.Subset.refl _, fun _ _ _ => rfl, rfl⟩⟩
  · intro number method present outside
    refine ⟨(scheme.parts method.key).map .raw, ?_, ?_, ?_⟩
    · rw [List.map_map]
      exact List.map_id _
    · have named := name_ne_of_other fits located'.found present outside
      rw [code number method present outside, List.flatMap_map,
        fits.bodies method (List.mem_of_getElem? present) named]
      rfl
    · intro piece member
      obtain ⟨part, _, rfl⟩ := List.mem_map.mp member
      cases part with
      | use table index => exact id
      | other instruction => trivial
  · intro number method present outside _
    exact code number method present outside
  · intro table index value known
    rw [memo'] at known
    cases known
  · intro table
    rw [fields', memo']
    simp [RecoveryState.start, KeySet.contains, KeySet.empty]
  · intro helper
    rw [methods', memo']
    simp [RecoveryState.start, KeySet.contains, KeySet.empty]

/-! ### When all passes are done -/

/-- What the passes leave: every use has its value, and the marks are on the
tables that values came from and on the helpers that unmasked them. -/
structure Resolved (scheme : Scheme) (origin : Class) (position : Nat) (state : RecoveryState) :
    Prop where
  frame : state.frame = (RecoveryState.start origin position).frame
  initializer : ∃ live, state.initializerCode.toList = live.flatMap (Entry.code origin.name) ∧
    live ⊆ scheme.entries ∧
    live.filter (scheme.stays origin) = scheme.entries.filter (scheme.stays origin)
  bodies : ∀ index method, origin.methods[index]? = some method → index ≠ position →
    (state.cls.codeAt index).toList = scheme.recoveredBody origin method.key
  fields : ∀ table, state.markedFields.contains table = scheme.takesTable origin table
  methods : ∀ helper, state.markedMethods.contains helper =
    (scheme.usedSlots origin).any fun (table, index) =>
      (firstStore scheme.entries table index).any (·.helper? = some helper)

/-- Once all passes are done, a slot that is read and stored into is
remembered. -/
theorem remembered_of_used (located : origin.initializer? = some position)
    (resolving : Resolving scheme origin position done state) (all : ∀ kind, done kind)
    (used : (table, index) ∈ scheme.usedSlots origin)
    (stored : (firstStore scheme.entries table index).isSome = true) :
    (state.memo.lookup (table, index)).isSome = true := by
  obtain ⟨method, known, inside⟩ := List.mem_flatMap.mp used
  obtain ⟨member, named⟩ := List.mem_filter.mp known
  obtain ⟨part, present, slot⟩ := List.mem_filterMap.mp inside
  obtain ⟨number, found⟩ := List.getElem?_of_mem member
  have outside : number ≠ position := by
    rintro rfl
    simp [Class.name_of_initializer? located found] at named
  obtain ⟨pieces, parts, _, fine⟩ := resolving.bodies number method found outside
  rw [← parts] at present
  obtain ⟨piece, listed, rfl⟩ := List.mem_map.mp present
  have before := fine piece listed
  cases piece with
  | raw part =>
    cases part with
    | use other place => exact absurd (all (scheme.kindOf other)) before
    | other instruction => cases slot
  | settled other place =>
    cases slot
    rcases before with remembered | missing
    · exact remembered
    · rw [missing] at stored
      cases stored

theorem resolved_of_resolving (located : origin.initializer? = some position)
    (resolving : Resolving scheme origin position done state) (all : ∀ kind, done kind) :
    Resolved scheme origin position state := by
  have remembered (table : MemberKey) (index : Int32) :
      (state.memo.lookup (table, index)).isSome = true ↔
        (table, index) ∈ scheme.usedSlots origin ∧
          (firstStore scheme.entries table index).isSome = true := by
    constructor
    · intro known
      obtain ⟨value, known⟩ := Option.isSome_iff_exists.mp known
      obtain ⟨used, source, first, _⟩ := resolving.memo table index value known
      exact ⟨used, by simp [first]⟩
    · rintro ⟨used, stored⟩
      exact remembered_of_used located resolving all used stored
  have fields (table : MemberKey) :
      state.markedFields.contains table = scheme.takesTable origin table := by
    rw [Bool.eq_iff_iff, resolving.fields, takesTable, List.any_eq_true]
    simp only [remembered, Bool.and_eq_true, decide_eq_true_eq]
    constructor
    · rintro ⟨index, used, stored⟩
      exact ⟨(table, index), used, rfl, stored⟩
    · rintro ⟨⟨_, index⟩, used, rfl, stored⟩
      exact ⟨index, used, stored⟩
  refine ⟨resolving.frame, ?_, ?_, fields, ?_⟩
  · obtain ⟨live, view, remains⟩ := resolving.initializer
    have same : untouched state.markedFields = scheme.stays origin := by
      funext entry
      simp only [untouched, stays, fields]
    exact ⟨live, view, remains.subset, same ▸ remains.rest⟩
  · intro number method present outside
    obtain ⟨pieces, parts, view, fine⟩ := resolving.bodies number method present outside
    rw [view, recoveredBody, ← parts, List.map_map, List.map_eq_flatMap]
    refine List.flatMap_congr fun piece member => ?_
    have before := fine piece member
    cases piece with
    | settled table index => rfl
    | raw part =>
      cases part with
      | use table index => exact absurd (all (scheme.kindOf table)) before
      | other instruction => rfl
  · intro helper
    rw [Bool.eq_iff_iff, resolving.methods, List.any_eq_true]
    simp only [remembered, Option.any_eq_true, decide_eq_true_eq]
    constructor
    · rintro ⟨table, index, source, ⟨used, _⟩, first, helps⟩
      exact ⟨(table, index), used, source, first, helps⟩
    · rintro ⟨⟨table, index⟩, used, source, first, helps⟩
      exact ⟨table, index, source, ⟨used, by simp [first]⟩, first, helps⟩

/-- No pass fails over a class that fits a scheme. -/
theorem runAll_resolved (fits : scheme.Fits origin)
    (located : origin.initializer? = some position) :
    ∃ state, Pass.runAll ⟨.combine⟩ recoveryPasses (RecoveryState.start origin position) =
        (state, none) ∧ Resolved scheme origin position state := by
  have folded := resolving_folded fits located
  obtain ⟨calmInt, ints⟩ := run_resolving fits located folded ⟨.combine⟩ .int
  obtain ⟨calmLong, longs⟩ := run_resolving fits located ints ⟨.combine⟩ .long
  obtain ⟨calmString, strings⟩ := run_resolving fits located longs ⟨.combine⟩ .reference
  refine ⟨_, ?_, resolved_of_resolving located strings fun kind => by cases kind <;> simp⟩
  rw [recoveryPasses, Pass.runAll_cons (Pass.run_fine _ _ _ (by simp)),
    Pass.runAll_cons (Pass.run_fine _ _ _ (by simp)), Pass.runAll_cons calmInt,
    Pass.runAll_cons calmLong, Pass.runAll_cons calmString, Pass.runAll]

end Scheme

end LiteralRecovery
