import LiteralRecovery.Proofs.KeyedState
import LiteralRecovery.Proofs.TableAccess

/-! Reads in different methods are replaced in either order. What settling a
slot takes out does not depend on other slots having been settled, or on other
reads having been replaced, as long as the accesses of the initializer do not
nest and the helpers it calls keep away from the tables. -/
namespace LiteralRecovery.KeyedState

open StaticTable

variable {home key : MemberKey} {kind : ElementKind} {state settled : KeyedState}
variable {slot slot' : TableSlot} {taking taking' : Taking} {spot spot' : MemberKey × NodeId}
variable {site site' : ReadSite}

/-- The initializer's accesses to tables do not nest, the methods that it calls
are others and name no table, and what is remembered are constants. -/
structure Tame (home : MemberKey) (state : KeyedState) : Prop where
  present : (state.method? home).isSome = true
  unnested : Unnested state.name (state.codeOf home)
  helpers : ∀ target onInterface, .invokeStatic target onInterface ∈ (state.codeOf home).toList →
    target.owner = state.name → target.key ≠ home ∧
      ∀ held ∈ (state.codeOf target.key).toList, namesTable state.name held = false
  remembered : ∀ slot value, state.memo slot = some value → isConstant value = true
  markedFields : state.markedFields.Ordered
  markedMethods : state.markedMethods.Ordered

/-- An edit of the initializer that brings in nothing but constants. -/
theorem Tame.edited {edit : Listing Instruction → Listing Instruction} (tame : Tame home state)
    (unnested : Unnested state.name (edit (state.codeOf home)))
    (kept : ∀ held ∈ (edit (state.codeOf home)).toList, isConstant held = false →
      held ∈ (state.codeOf home).toList) : Tame home (state.editCode home edit) := by
  have code : (state.editCode home edit).codeOf home = edit (state.codeOf home) :=
    codeOf_editCode_self tame.present
  refine ⟨isSome_method?_editCode.trans tame.present, ?_, ?_, tame.remembered, tame.markedFields,
    tame.markedMethods⟩
  · rw [code]
    exact unnested
  · intro target flag called owner
    rw [code] at called
    obtain ⟨other, unnamed⟩ := tame.helpers target flag (kept _ called rfl) owner
    exact ⟨other, by rwa [codeOf_editCode_ne other]⟩

theorem Tame.counted (tame : Tame home state) (stats : Stats) :
    Tame home { state with stats } :=
  ⟨tame.present, tame.unnested, tame.helpers, tame.remembered, tame.markedFields,
    tame.markedMethods⟩

/-! ### What is due -/

/-- Slots of tables of one class are told apart by key and index. -/
theorem slotKey_ne (own : slot.1.owner = state.name) (own' : slot'.1.owner = state.name)
    (different : slot ≠ slot') : (slot.1.key, slot.2) ≠ (slot'.1.key, slot'.2) := by
  intro same
  obtain ⟨keys, indices⟩ := Prod.mk.inj same
  exact different (Prod.ext (MemberRef.eq_of_key (own.trans own'.symm) keys) indices)

theorem stored?_constant {store : StoreSite} {className : String} {field : MemberRef}
    {segment : List (NodeId × Instruction)} {found : Instruction × Option MemberKey}
    (shape : StoreSegment className field kind store segment)
    (held : state.stored? store = some found) : isConstant found.1 = true := by
  cases shape with
  | int | long =>
    cases held
    rfl
  | string =>
    obtain ⟨method, _, rfl⟩ := Option.map_eq_some_iff.mp held
    rfl

/-- What is due is the first store of the slot. -/
theorem segment_of_due (found : due home kind state slot = some (some taking)) :
    isConstant taking.value = true ∧
      ∃ store segment, Stands (state.codeOf home) segment ∧
        StoreSegment state.name slot.1 kind store segment ∧ store.index = slot.2 ∧
        taking.nodes = segment.map (·.1) := by
  unfold due at found
  split at found
  · cases found
  · split at found
    · cases found
    · rename_i store hit
      split at found
      · cases found
      · obtain ⟨answer, held, same⟩ := Option.map_eq_some_iff.mp found
        cases same
        obtain ⟨id, stored, atIndex, _⟩ := storeAt?_eq_some.mp hit
        obtain ⟨segment, stands, shape, _⟩ := store?_eq_some.mp stored
        exact ⟨stored?_constant shape held, store, segment, stands, shape, atIndex,
          shape.nodes.symm⟩

/-- What is due depends on the memo of the slot, the first store of the slot and
the helper of that store. -/
theorem due_congr {other : KeyedState} (name : other.name = state.name)
    (fields : other.fields = state.fields)
    (memo : other.memo (slot.1.key, slot.2) = state.memo (slot.1.key, slot.2))
    (store : storeAt? (other.codeOf home) slot.1 slot.2 kind state.name =
      storeAt? (state.codeOf home) slot.1 slot.2 kind state.name)
    (helper : ∀ target onInterface,
      .invokeStatic target onInterface ∈ (state.codeOf home).toList →
        target.owner = state.name → other.method? target.key = state.method? target.key) :
    due home kind other slot = due home kind state slot := by
  unfold due
  rw [name, fields, memo, store]
  cases hit : storeAt? (state.codeOf home) slot.1 slot.2 kind state.name with
  | none => rfl
  | some store =>
    obtain ⟨id, stored, _, _⟩ := storeAt?_eq_some.mp hit
    obtain ⟨segment, stands, shape, _⟩ := store?_eq_some.mp stored
    have same : other.stored? store = state.stored? store := by
      cases shape with
      | int | long => rfl
      | string head indexId valueId callId storeId index cipher target flag own =>
        have called : Instruction.invokeStatic target flag ∈ (state.codeOf home).toList :=
          Listing.mem_toList.mpr ⟨callId, stands_live stands (callId, _) (by simp)⟩
        simp only [stored?, helper target flag called own, name]
    simp only [same]

section Take

theorem codeOf_take (key : MemberKey) : (state.take home slot taking).codeOf key =
    (state.editCode home (·.removeAll taking.nodes)).codeOf key := rfl

theorem codeOf_take_home (tame : Tame home state) :
    (state.take home slot taking).codeOf home = (state.codeOf home).removeAll taking.nodes := by
  rw [codeOf_take, codeOf_editCode_self tame.present]

theorem codeOf_take_ne (different : key ≠ home) :
    (state.take home slot taking).codeOf key = state.codeOf key := by
  rw [codeOf_take, codeOf_editCode_ne different]

theorem method?_take_ne (different : key ≠ home) :
    (state.take home slot taking).method? key = state.method? key := by
  simp [take, editCode, different]

/-- Using up a store takes an access out of the initializer. -/
theorem trades_take (tame : Tame home state)
    (found : due home kind state slot = some (some taking)) :
    ∃ store segment, Trades segment (state.codeOf home)
        ((state.take home slot taking).codeOf home) ∧
      StoreSegment state.name slot.1 kind store segment ∧ store.index = slot.2 := by
  obtain ⟨_, store, segment, stands, shape, atIndex, nodes⟩ := segment_of_due found
  rw [codeOf_take_home tame, nodes]
  exact ⟨store, segment, trades_removeAll stands, shape, atIndex⟩

theorem tame_take (tame : Tame home state) (own : slot.1.owner = state.name)
    (found : due home kind state slot = some (some taking)) :
    Tame home (state.take home slot taking) := by
  obtain ⟨store, segment, trades, shape, _⟩ := trades_take tame found
  rw [codeOf_take_home tame] at trades
  have edited : Tame home (state.editCode home (·.removeAll taking.nodes)) :=
    tame.edited (trades.unnested (.inl (access_of_store own shape.constant)) tame.unnested)
      fun held member other => trades.mem_toList member other
  refine ⟨edited.present, edited.unnested, edited.helpers, ?_, tame.markedFields.insert _, ?_⟩
  · intro other value held
    simp only [take] at held
    split at held
    · cases held
      exact (segment_of_due found).1
    · exact tame.remembered other value held
  · cases helper : taking.helper with
    | none => simpa [take, helper] using tame.markedMethods
    | some method => simpa [take, helper] using tame.markedMethods.insert method

/-- Using up one slot leaves the others as they are. -/
theorem due_take (tame : Tame home state) (own : slot.1.owner = state.name)
    (own' : slot'.1.owner = state.name) (found : due home kind state slot = some (some taking))
    (different : slot' ≠ slot) :
    due home kind (state.take home slot taking) slot' = due home kind state slot' := by
  obtain ⟨store, segment, trades, shape, atIndex⟩ := trades_take tame found
  refine due_congr rfl rfl ?_ ?_ ?_
  · simp [take, slotKey_ne own' own different]
  · refine trades.storeAt?_eq (access_of_store own shape.constant) tame.unnested own' ?_
    intro other shape' same
    obtain ⟨fields, _, rfl⟩ := shape.unique shape'
    exact different (Prod.ext fields.symm (same.symm.trans atIndex))
  · intro target flag called owner
    exact method?_take_ne (tame.helpers target flag called owner).1

end Take

section Put

theorem codeOf_put (key : MemberKey) : (state.put kind spot site).codeOf key =
    (state.editCode spot.1 fun code => (code.removeAll site.tail).replace spot.2
      (state.valueOf kind (site.field, site.index))).codeOf key := rfl

theorem codeOf_put_ne (different : key ≠ spot.1) :
    (state.put kind spot site).codeOf key = state.codeOf key := by
  rw [codeOf_put, codeOf_editCode_ne different]

theorem method?_put_ne (different : key ≠ spot.1) :
    (state.put kind spot site).method? key = state.method? key := by
  simp [put, editCode, different]

theorem owner_of_read (read : read? (state.codeOf spot.1) spot.2 state.name kind = some site) :
    (site.field, site.index).1.owner = state.name := by
  obtain ⟨_, _, _, own, _⟩ := read?_eq_some.mp read
  exact own

theorem present_of_read
    (read : read? (state.codeOf spot.1) spot.2 state.name kind = some site) :
    (state.method? spot.1).isSome = true := by
  cases held : state.method? spot.1 with
  | some method => rfl
  | none =>
    obtain ⟨_, _, stands, _, _⟩ := read?_eq_some.mp read
    have live := stands_live stands _ List.mem_cons_self
    simp [codeOf, held, Listing.empty, Listing.get?] at live

theorem isConstant_valueOf (tame : Tame home state) (slot : TableSlot) :
    isConstant (state.valueOf kind slot) = true := by
  unfold valueOf
  cases held : state.memo (slot.1.key, slot.2) with
  | none => cases kind <;> rfl
  | some value => exact tame.remembered _ value held

/-- Replacing a read trades an access for a constant. -/
theorem trades_put (tame : Tame home state)
    (read : read? (state.codeOf spot.1) spot.2 state.name kind = some site) :
    ∃ indexId loadId, site.field.owner = state.name ∧
      Trades [(spot.2, .getStatic site.field), (indexId, .intConst site.index),
        (loadId, .arrayLoad kind)] (state.codeOf spot.1)
        ((state.put kind spot site).codeOf spot.1) := by
  obtain ⟨indexId, loadId, stands, own, tail⟩ := read?_eq_some.mp read
  refine ⟨indexId, loadId, own, ?_⟩
  rw [codeOf_put, codeOf_editCode_self (present_of_read read), tail]
  have traded := trades_collapse stands (@isConstant_valueOf home kind state tame
    (site.field, site.index))
  exact traded

/-- A method that names no table has no read. -/
theorem ne_of_unnamed (read : read? (state.codeOf spot.1) spot.2 state.name kind = some site)
    (unnamed : ∀ held ∈ (state.codeOf key).toList, namesTable state.name held = false) :
    key ≠ spot.1 := by
  rintro rfl
  obtain ⟨_, _, stands, own, _⟩ := read?_eq_some.mp read
  have named := unnamed (.getStatic site.field)
    (Listing.mem_toList.mpr ⟨spot.2, stands_live stands (spot.2, _) List.mem_cons_self⟩)
  simp [namesTable, own] at named

theorem tame_put (tame : Tame home state)
    (read : read? (state.codeOf spot.1) spot.2 state.name kind = some site) :
    Tame home (state.put kind spot site) := by
  obtain ⟨indexId, loadId, own, trades⟩ := trades_put tame read
  have called : ∀ held ∈ ((state.put kind spot site).codeOf home).toList,
      isConstant held = false → held ∈ (state.codeOf home).toList := by
    intro held member other
    by_cases here : home = spot.1
    · subst here
      exact trades.mem_toList member other
    · rwa [codeOf_put_ne here] at member
  refine ⟨?_, ?_, ?_, tame.remembered, tame.markedFields, tame.markedMethods⟩
  · have same : ((state.editCode spot.1 fun code => (code.removeAll site.tail).replace spot.2
        (state.valueOf kind (site.field, site.index))).method? home).isSome =
        (state.method? home).isSome := isSome_method?_editCode
    exact same.trans tame.present
  · by_cases here : home = spot.1
    · subst here
      exact trades.unnested (.inl (access_of_read own)) tame.unnested
    · rw [codeOf_put_ne here]
      exact tame.unnested
  · intro target flag member owner
    obtain ⟨other, unnamed⟩ := tame.helpers target flag (called _ member rfl) owner
    refine ⟨other, ?_⟩
    rw [codeOf_put_ne (ne_of_unnamed read unnamed)]
    exact unnamed

/-- Replacing a read leaves every slot as it is. -/
theorem due_put (tame : Tame home state) (own : slot.1.owner = state.name)
    (read : read? (state.codeOf spot.1) spot.2 state.name kind = some site) :
    due home kind (state.put kind spot site) slot = due home kind state slot := by
  obtain ⟨indexId, loadId, owner, trades⟩ := trades_put tame read
  refine due_congr rfl rfl rfl ?_ ?_
  · by_cases here : home = spot.1
    · subst here
      refine trades.storeAt?_eq (access_of_read owner) tame.unnested own ?_
      -- what is traded ends in a load, so it is no store of any slot
      intro store shape
      exact absurd rfl ((shape.constant.foreign (loadId, .arrayLoad kind) (by simp)).1 kind)
    · rw [codeOf_put_ne here]
  · intro target flag called owner'
    have unnamed := (tame.helpers target flag called owner').2
    exact method?_put_ne (ne_of_unnamed read unnamed)

end Put

/-! ### Settling and replacing in either order -/

section Settle

theorem settle_cases (done : settle home kind state slot = some settled) :
    (due home kind state slot = some none ∧ settled = state) ∨
    ∃ taking, due home kind state slot = some (some taking) ∧
      settled = state.take home slot taking := by
  obtain ⟨answer, found, same⟩ := Option.map_eq_some_iff.mp done
  cases answer with
  | none => exact .inl ⟨found, same.symm⟩
  | some taking => exact .inr ⟨taking, found, same.symm⟩

theorem name_settle (done : settle home kind state slot = some settled) :
    settled.name = state.name := by
  rcases settle_cases done with ⟨_, rfl⟩ | ⟨taking, _, rfl⟩ <;> rfl

theorem tame_settle (tame : Tame home state) (own : slot.1.owner = state.name)
    (done : settle home kind state slot = some settled) : Tame home settled := by
  rcases settle_cases done with ⟨_, rfl⟩ | ⟨taking, found, rfl⟩
  · exact tame
  · exact tame_take tame own found

/-- Nothing is due of a slot that has been settled. -/
theorem due_settled (done : settle home kind state slot = some settled) :
    due home kind settled slot = some none := by
  rcases settle_cases done with ⟨found, rfl⟩ | ⟨taking, found, rfl⟩
  · exact found
  · simp [due, take]

theorem read?_settle (tame : Tame home state) (own : slot.1.owner = state.name)
    (done : settle home kind state slot = some settled) (key : MemberKey) (node : NodeId) :
    read? (settled.codeOf key) node settled.name kind =
      read? (state.codeOf key) node state.name kind := by
  rw [name_settle done]
  rcases settle_cases done with ⟨_, rfl⟩ | ⟨taking, found, rfl⟩
  · rfl
  · by_cases here : key = home
    · subst here
      obtain ⟨store, segment, trades, shape, _⟩ := trades_take tame found
      exact trades.read?_eq own shape.constant tame.unnested node kind
    · rw [codeOf_take_ne here]

theorem take_take_comm (tame : Tame home state)
    (different : (slot.1.key, slot.2) ≠ (slot'.1.key, slot'.2)) :
    (state.take home slot taking).take home slot' taking' =
      (state.take home slot' taking').take home slot taking := by
  have methods := congrArg KeyedState.method? (@editCode_comm state home home
    (·.removeAll taking.nodes) (·.removeAll taking'.nodes)
    fun _ code => Listing.removeAll_comm code _ _)
  refine KeyedState.ext rfl rfl methods (tame.markedFields.insert_comm _ _) ?_ rfl ?_ rfl
  · cases first : taking.helper <;> cases second : taking'.helper <;>
      simp [take, first, second, tame.markedMethods.insert_comm]
  · funext other
    by_cases here : other = (slot.1.key, slot.2)
    · simp [take, here, different]
    · simp [take, here]

theorem put_take_comm (different : (site.field.key, site.index) ≠ (slot.1.key, slot.2)) :
    (state.put kind spot site).take home slot taking =
      (state.take home slot taking).put kind spot site := by
  have kept : (state.take home slot taking).memo (site.field.key, site.index) =
      state.memo (site.field.key, site.index) := by
    simp [take, different]
  have value : (state.take home slot taking).valueOf kind (site.field, site.index) =
      state.valueOf kind (site.field, site.index) := by
    simp only [valueOf, kept]
  have methods := congrArg KeyedState.method? (@editCode_comm state spot.1 home
    (fun code => (code.removeAll site.tail).replace spot.2
      (state.valueOf kind (site.field, site.index))) (·.removeAll taking.nodes) (by
        intro _ code
        rw [Listing.replace_removeAll_comm, Listing.removeAll_comm]))
  refine KeyedState.ext rfl rfl ?_ rfl rfl rfl rfl ?_
  · simp only [put, value]
    exact methods
  · simp only [put, kept]
    rfl

theorem tally_comm (first second : Bool) (stats : Stats) :
    tally kind second (tally kind first stats) = tally kind first (tally kind second stats) := by
  cases first <;> cases second <;> cases kind <;> rfl

theorem put_put_comm (different : spot.1 ≠ spot'.1) :
    (state.put kind spot site).put kind spot' site' =
      (state.put kind spot' site').put kind spot site := by
  have methods := congrArg KeyedState.method? (@editCode_comm state spot.1 spot'.1
    (fun code => (code.removeAll site.tail).replace spot.2
      (state.valueOf kind (site.field, site.index)))
    (fun code => (code.removeAll site'.tail).replace spot'.2
      (state.valueOf kind (site'.field, site'.index))) fun same => absurd same different)
  exact KeyedState.ext rfl rfl methods rfl rfl rfl rfl (tally_comm _ _ _)

/-- Two slots are settled in either order. -/
theorem settle_comm (tame : Tame home state) (own : slot.1.owner = state.name)
    (own' : slot'.1.owner = state.name) :
    (settle home kind state slot).bind (settle home kind · slot') =
      (settle home kind state slot').bind (settle home kind · slot) := by
  by_cases same : slot = slot'
  · rw [same]
  have different := slotKey_ne own own' same
  rcases first : due home kind state slot with _ | _ | taking
  · rcases second : due home kind state slot' with _ | _ | taking'
    · simp [settle, first, second]
    · simp [settle, first, second]
    · simp [settle, first, second, due_take tame own' own second same]
  · rcases second : due home kind state slot' with _ | _ | taking'
    · simp [settle, first, second]
    · simp [settle, first, second]
    · simp [settle, first, second, due_take tame own' own second same]
  · have after := due_take tame own own' first (Ne.symm same)
    rcases second : due home kind state slot' with _ | _ | taking'
    · simp [settle, first, second, after]
    · simp [settle, first, second, after]
    · simp [settle, first, second, after, due_take tame own' own second same,
        take_take_comm tame different]

/-- A slot is settled before or after the read of another, settled slot is
replaced. -/
theorem settle_put (tame : Tame home state) (own : slot.1.owner = state.name)
    (read : read? (state.codeOf spot.1) spot.2 state.name kind = some site)
    (done : due home kind state (site.field, site.index) = some none) :
    settle home kind (state.put kind spot site) slot =
      (settle home kind state slot).map (·.put kind spot site) := by
  rcases found : due home kind state slot with _ | _ | taking
  · simp [settle, due_put tame own read, found]
  · simp [settle, due_put tame own read, found]
  · -- the slot of the read is settled, so it is not the one with a store left
    have different : (site.field, site.index) ≠ slot := by
      intro same
      rw [same, found] at done
      cases done
    have apart := slotKey_ne (owner_of_read read) own different
    simp [settle, due_put tame own read, found, put_take_comm apart]

end Settle

/-! ### Two steps -/

theorem advance_cases (done : advance home kind state spot = some settled) :
    (read? (state.codeOf spot.1) spot.2 state.name kind = none ∧ settled = state) ∨
    ∃ site between, read? (state.codeOf spot.1) spot.2 state.name kind = some site ∧
      settle home kind state (site.field, site.index) = some between ∧
      settled = between.put kind spot site := by
  unfold advance at done
  split at done
  · rename_i none
    exact .inl ⟨none, (Option.some.inj done).symm⟩
  · rename_i site read
    obtain ⟨between, found, same⟩ := Option.map_eq_some_iff.mp done
    exact .inr ⟨site, between, read, found, same.symm⟩

theorem tame_advance (tame : Tame home state)
    (done : advance home kind state spot = some settled) : Tame home settled := by
  rcases advance_cases done with ⟨_, rfl⟩ | ⟨site, between, read, found, rfl⟩
  · exact tame
  · have own := owner_of_read read
    have still := (read?_settle tame own found spot.1 spot.2).trans read
    exact tame_put (tame_settle tame own found) still

/-- A step leaves the reads of other methods as they were. -/
theorem read?_advance (tame : Tame home state)
    (done : advance home kind state spot = some settled) (different : key ≠ spot.1)
    (node : NodeId) :
    read? (settled.codeOf key) node settled.name kind =
      read? (state.codeOf key) node state.name kind := by
  rcases advance_cases done with ⟨_, rfl⟩ | ⟨site, between, read, found, rfl⟩
  · rfl
  · rw [codeOf_put_ne different]
    exact read?_settle tame (owner_of_read read) found key node

theorem advance_of_none (none : read? (state.codeOf spot.1) spot.2 state.name kind = none) :
    advance home kind state spot = some state := by
  rw [advance, none]

theorem advance_of_read (read : read? (state.codeOf spot.1) spot.2 state.name kind = some site) :
    advance home kind state spot =
      (settle home kind state (site.field, site.index)).map (·.put kind spot site) := by
  rw [advance, read]

/-- A place without a read is skipped before or after another step. -/
theorem advance_comm_of_none (tame : Tame home state) (different : spot.1 ≠ spot'.1)
    (none : read? (state.codeOf spot.1) spot.2 state.name kind = none) :
    (advance home kind state spot).bind (advance home kind · spot') =
      (advance home kind state spot').bind (advance home kind · spot) := by
  rw [advance_of_none none, Option.bind_some]
  cases done : advance home kind state spot' with
  | none => rfl
  | some settled =>
    have still := (read?_advance tame done different spot.2).trans none
    rw [Option.bind_some, advance_of_none still]

/-- Two reads in different methods: both slots are settled, then both reads are
replaced. -/
theorem advance_advance (tame : Tame home state) (different : spot.1 ≠ spot'.1)
    (read : read? (state.codeOf spot.1) spot.2 state.name kind = some site)
    (read' : read? (state.codeOf spot'.1) spot'.2 state.name kind = some site') :
    (advance home kind state spot).bind (advance home kind · spot') =
      ((settle home kind state (site.field, site.index)).bind
        (settle home kind · (site'.field, site'.index))).map
        fun both => (both.put kind spot site).put kind spot' site' := by
  have slot := owner_of_read read
  rw [advance_of_read read]
  cases done : settle home kind state (site.field, site.index) with
  | none => rfl
  | some settled =>
    have name := name_settle done
    have kept := tame_settle tame slot done
    have here := (read?_settle tame slot done spot.1 spot.2).trans read
    have there : read? ((settled.put kind spot site).codeOf spot'.1) spot'.2
        (settled.put kind spot site).name kind = some site' := by
      rw [codeOf_put_ne (Ne.symm different)]
      exact (read?_settle tame slot done spot'.1 spot'.2).trans read'
    have owner : (site'.field, site'.index).1.owner = settled.name :=
      (owner_of_read read').trans name.symm
    rw [Option.map_some, Option.bind_some, Option.bind_some, advance_of_read there,
      settle_put kept owner here (due_settled done), Option.map_map]
    rfl

/-- Steps in different methods are made in either order. -/
theorem advance_comm (tame : Tame home state) (different : spot.1 ≠ spot'.1) :
    (advance home kind state spot).bind (advance home kind · spot') =
      (advance home kind state spot').bind (advance home kind · spot) := by
  cases read : read? (state.codeOf spot.1) spot.2 state.name kind with
  | none => exact advance_comm_of_none tame different read
  | some site =>
    cases read' : read? (state.codeOf spot'.1) spot'.2 state.name kind with
    | none => exact (advance_comm_of_none tame (Ne.symm different) read').symm
    | some site' =>
      -- either way both slots are settled first, so only the settling has to commute
      have order := @settle_comm home kind state _ _ tame (owner_of_read read)
        (owner_of_read read')
      rw [advance_advance tame different read read',
        advance_advance tame (Ne.symm different) read' read, order]
      exact congrArg (Option.map · _) (funext fun both => put_put_comm different)

end LiteralRecovery.KeyedState
