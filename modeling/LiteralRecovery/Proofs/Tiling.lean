import LiteralRecovery.Proofs.Scheme

/-! Listings laid out in tiles. When the contents of a listing are put together
from pieces, every node lies in the tile of one piece. Stores, allocations and
reads that stand in the listing then are tiles of their own, and taking such a
tile out or collapsing it does to the pieces what one expects. -/
namespace LiteralRecovery

/-- The live view of a listing in tiles, each with the piece that it shows. -/
structure Tiling {β : Type} (code : Listing Instruction) (shape : β → List Instruction)
    (tiles : List (β × List (NodeId × Instruction))) : Prop where
  view : code.items = tiles.flatMap (·.2)
  shapes : ∀ tile ∈ tiles, tile.2.map (·.2) = shape tile.1

namespace Tiling

variable {β : Type} {code : Listing Instruction} {shape : β → List Instruction}
variable {tiles front back : List (β × List (NodeId × Instruction))}
variable {piece : β} {segment : List (NodeId × Instruction)}

private theorem exists_tiles {items : List (NodeId × Instruction)} {pieces : List β}
    (same : items.map (·.2) = pieces.flatMap shape) :
    ∃ tiles : List (β × List (NodeId × Instruction)), items = tiles.flatMap (·.2) ∧
      (∀ tile ∈ tiles, tile.2.map (·.2) = shape tile.1) ∧ tiles.map (·.1) = pieces := by
  induction pieces generalizing items with
  | nil =>
    have none : items = [] := by simpa using same
    exact ⟨[], by simp [none], by simp, rfl⟩
  | cons piece pieces ih =>
    obtain ⟨segment, rest, rfl, here, behind⟩ := List.map_eq_append_iff.mp same
    obtain ⟨tiles, rfl, shapes, names⟩ := ih behind
    exact ⟨(piece, segment) :: tiles, rfl, by simpa [here] using shapes, by simp [names]⟩

theorem exists_of_toList {pieces : List β} (same : code.toList = pieces.flatMap shape) :
    ∃ tiles, Tiling code shape tiles ∧ tiles.map (·.1) = pieces := by
  obtain ⟨tiles, view, shapes, names⟩ := exists_tiles same
  exact ⟨tiles, ⟨view, shapes⟩, names⟩

theorem stands (tiling : Tiling code shape tiles)
    (split : tiles = front ++ (piece, segment) :: back) : Stands code segment :=
  ⟨front.flatMap (·.2), back.flatMap (·.2), by simp [tiling.view, split]⟩

theorem tile_of_node (tiling : Tiling code shape tiles) {id : NodeId} {content : Instruction}
    (held : code.get? id = some content) :
    ∃ front piece segment back, tiles = front ++ (piece, segment) :: back ∧
      (id, content) ∈ segment ∧ segment.map (·.2) = shape piece ∧ Stands code segment := by
  have member := Listing.mem_items.mpr held
  rw [tiling.view] at member
  obtain ⟨⟨piece, segment⟩, present, inside⟩ := List.mem_flatMap.mp member
  obtain ⟨front, back, split⟩ := List.mem_iff_append.mp present
  exact ⟨front, piece, segment, back, split, inside, tiling.shapes _ present,
    tiling.stands split⟩

/-- The contents of the tiles are those of the pieces. -/
theorem contents (shapes : ∀ tile ∈ tiles, tile.2.map (·.2) = shape tile.1) :
    (tiles.flatMap (·.2)).map (·.2) = (tiles.map (·.1)).flatMap shape := by
  induction tiles with
  | nil => rfl
  | cons tile tiles ih =>
    have here := shapes tile List.mem_cons_self
    have behind := ih fun other member => shapes other (List.mem_cons_of_mem _ member)
    simp only [List.flatMap_cons, List.map_append, List.map_cons, here, behind]

theorem toList_remove (tiling : Tiling code shape tiles)
    (split : tiles = front ++ (piece, segment) :: back) :
    (code.removeAll (segment.map (·.1))).toList = ((front ++ back).map (·.1)).flatMap shape := by
  have view : code.items = front.flatMap (·.2) ++ segment ++ back.flatMap (·.2) := by
    simp [tiling.view, split]
  have shapes : ∀ tile ∈ front ++ back, tile.2.map (·.2) = shape tile.1 := by
    intro tile member
    apply tiling.shapes tile
    rw [split]
    exact ((List.sublist_cons_self _ back).append_left front).subset member
  rw [Listing.toList, Listing.items_removeAll_segment view, ← contents shapes,
    List.flatMap_append]

theorem toList_collapse (tiling : Tiling code shape tiles) {id : NodeId} {content : Instruction}
    {rest : List (NodeId × Instruction)} (value : Instruction)
    (split : tiles = front ++ (piece, (id, content) :: rest) :: back) :
    ((code.removeAll (rest.map (·.1))).replace id value).toList =
      (front.map (·.1)).flatMap shape ++ [value] ++ (back.map (·.1)).flatMap shape := by
  have view : code.items =
      front.flatMap (·.2) ++ ((id, content) :: rest) ++ back.flatMap (·.2) := by
    simp [tiling.view, split]
  have early : ∀ tile ∈ front, tile.2.map (·.2) = shape tile.1 :=
    fun tile member => tiling.shapes tile (by simp [split, member])
  have late : ∀ tile ∈ back, tile.2.map (·.2) = shape tile.1 :=
    fun tile member => tiling.shapes tile (by simp [split, member])
  rw [Listing.toList, Listing.items_collapse value view, List.map_append, List.map_cons,
    contents early, contents late]
  simp

/-- Taking out nodes tile by tile takes out the pieces. -/
theorem toList_filter (tiling : Tiling code shape tiles) {nodes : List NodeId} (drop : β → Bool)
    (exact : ∀ tile ∈ tiles, ∀ entry ∈ tile.2, entry.1 ∈ nodes ↔ drop tile.1 = true) :
    (code.removeAll nodes).toList = ((tiles.map (·.1)).filter (!drop ·)).flatMap shape := by
  rw [Listing.toList, Listing.items_removeAll, tiling.view]
  have shapes := tiling.shapes
  clear tiling
  induction tiles with
  | nil => rfl
  | cons tile tiles ih =>
    have behind := ih (fun other member => exact other (List.mem_cons_of_mem _ member))
      fun other member => shapes other (List.mem_cons_of_mem _ member)
    have here := exact tile List.mem_cons_self
    rw [List.flatMap_cons, List.filter_append, List.map_append, behind, List.map_cons]
    cases gone : drop tile.1 with
    | true =>
      have none : (tile.2.filter fun entry => entry.1 ∉ nodes) = [] :=
        List.filter_eq_nil_iff.mpr fun entry member => by simp [(here entry member).mpr gone]
      rw [none, List.filter_cons_of_neg (by simp [gone])]
      rfl
    | false =>
      have all : (tile.2.filter fun entry => entry.1 ∉ nodes) = tile.2 :=
        List.filter_eq_self.mpr fun entry member => by simp [here entry member, gone]
      rw [all, List.filter_cons_of_pos (by simp [gone]), List.flatMap_cons,
        shapes tile List.mem_cons_self]

end Tiling

namespace Scheme

open StaticTable

variable {owner : String} {code : Listing Instruction} {live : List Entry} {table : MemberKey}
variable {index : Int32} {source : Source Int32 Int64} {kind : ElementKind} {site : StoreSite}
variable {segment : List (NodeId × Instruction)}

/-! ### First stores -/

theorem firstStore_eq_none :
    firstStore live table index = none ↔ ∀ source, .store table index source ∉ live := by
  simp only [firstStore, List.findSome?_eq_none_iff]
  constructor
  · intro none source member
    have missed := none _ member
    simp at missed
  · intro absent entry member
    cases entry with
    | store other position source =>
      apply if_neg
      rintro ⟨rfl, rfl⟩
      exact absent source member
    | allocate size kind other => rfl
    | other code => rfl

theorem firstStore_of_split {front back : List Entry} (none : firstStore front table index = none) :
    firstStore (front ++ .store table index source :: back) table index = some source := by
  rw [firstStore] at none
  simp [firstStore, List.findSome?_append, none]

/-- An entry that does not store into a slot makes no difference to it. -/
theorem firstStore_remove {front back : List Entry} {entry : Entry}
    (different : ∀ source, entry ≠ .store table index source) :
    firstStore (front ++ back) table index = firstStore (front ++ entry :: back) table index := by
  simp only [firstStore, List.findSome?_append, List.findSome?_cons]
  cases entry with
  | store other position source =>
    have apart : ¬ (other = table ∧ position = index) := by
      rintro ⟨rfl, rfl⟩
      exact different source rfl
    simp [apart]
  | allocate size kind other => rfl
  | other code => rfl

/-! ### Stores, allocations and their tiles -/

/-- The instruction that a store pushes as its value. -/
def Source.raw : Source Int32 Int64 → Instruction
  | .int value => .intConst value
  | .long value => .longConst value
  | .string cipher _ _ => .stringConst cipher

/-- The store site says what the source says. -/
def Source.Agrees (owner : String) (source : Source Int32 Int64) (site : StoreSite) : Prop :=
  site.value = source.raw ∧ site.helper = source.helper?.map (·.owned owner)

theorem storeSegment_of_entry
    (shape : segment.map (·.2) = Entry.code owner (.store table index source)) :
    ∃ site, StoreSegment owner (table.owned owner) source.kind site segment ∧
      site.index = index ∧ source.Agrees owner site := by
  cases source with
  | int value =>
    obtain ⟨head, indexId, valueId, storeId, rfl⟩ := segment_of_four shape
    exact ⟨_, .int head indexId valueId storeId index value, rfl, rfl, rfl⟩
  | long value =>
    obtain ⟨head, indexId, valueId, storeId, rfl⟩ := segment_of_four shape
    exact ⟨_, .long head indexId valueId storeId index value, rfl, rfl, rfl⟩
  | string cipher helper onInterface =>
    obtain ⟨head, indexId, valueId, callId, storeId, rfl⟩ := segment_of_five shape
    exact ⟨_, .string head indexId valueId callId storeId index cipher _ onInterface rfl, rfl,
      rfl, rfl⟩

variable {tiles : List (Entry × List (NodeId × Instruction))}

/-- A read of a table in the initializer is the start of a store. -/
theorem getStatic_tile (tiling : Tiling code (Entry.code owner) tiles) {id : NodeId}
    {field : MemberRef} (held : code.get? id = some (.getStatic field)) :
    ∃ front table source site segment back,
      tiles = front ++ (.store table site.index source, segment) :: back ∧
      field = table.owned owner ∧ Stands code segment ∧
      StoreSegment owner field source.kind site segment ∧ site.nodes.head? = some id ∧
      source.Agrees owner site := by
  obtain ⟨front, piece, segment, back, split, inside, contents, stands⟩ := tiling.tile_of_node held
  have listed : .getStatic field ∈ Entry.code owner piece := contents ▸ List.mem_map_of_mem inside
  cases piece with
  | allocate size array table => simp [Entry.code, Block.code] at listed
  | other code => simp [Entry.code, Block.code] at listed
  | store table index source =>
    obtain ⟨site, shape, rfl, agrees⟩ := storeSegment_of_entry contents
    obtain ⟨head, rest, rfl, start⟩ := shape.head
    obtain ⟨_, _, same, none⟩ := shape.constant.head
    cases same
    rcases List.mem_cons.mp inside with here | behind
    · cases here
      exact ⟨front, table, source, site, _, back, split, rfl, stands, shape, start, agrees⟩
    · exact absurd rfl (none _ behind field)

/-- A write of a table in the initializer is the end of an allocation. -/
theorem putStatic_tile (tiling : Tiling code (Entry.code owner) tiles) {id : NodeId}
    {field : MemberRef} (held : code.get? id = some (.putStatic field)) :
    ∃ front table size array sizeId newId back, field = table.owned owner ∧
      tiles = front ++ (.allocate size array table, [(sizeId, .intConst size),
        (newId, .newArray array), (id, .putStatic field)]) :: back := by
  obtain ⟨front, piece, segment, back, split, inside, contents, _⟩ := tiling.tile_of_node held
  have listed : .putStatic field ∈ Entry.code owner piece := contents ▸ List.mem_map_of_mem inside
  cases piece with
  | store table index source =>
    cases source <;> simp [Entry.code, Block.code, Source.code] at listed
  | other code => simp [Entry.code, Block.code] at listed
  | allocate size array table =>
    obtain ⟨sizeId, newId, putId, rfl⟩ := segment_of_three contents
    simp only [List.mem_cons, Prod.mk.injEq, reduceCtorEq, and_false, List.not_mem_nil, or_false,
      false_or, Instruction.putStatic.injEq] at inside
    obtain ⟨rfl, rfl⟩ := inside
    exact ⟨front, table, size, array, sizeId, newId, back, rfl, split⟩

/-- A store that stands in the initializer is the tile of a store entry. -/
theorem store_tile (tiling : Tiling code (Entry.code owner) tiles) (stands : Stands code segment)
    {field : MemberRef} (shape : StoreSegment owner field kind site segment) :
    ∃ front table source back, tiles = front ++ (.store table site.index source, segment) :: back ∧
      field = table.owned owner ∧ source.kind = kind ∧ source.Agrees owner site := by
  obtain ⟨head, rest, rfl, start⟩ := shape.head
  have held := stands_live stands (head, .getStatic field) List.mem_cons_self
  obtain ⟨front, table, source, site', segment, back, split, rfl, stands', shape', start',
    agrees⟩ := getStatic_tile tiling held
  rcases stores_apart_or_same stands shape.constant stands' shape'.constant with apart | rfl
  · refine absurd ?_ (apart _ List.mem_cons_self)
    rw [shape'.nodes]
    exact List.mem_of_mem_head? start'
  · obtain ⟨_, rfl, rfl⟩ := shape.unique shape'
    exact ⟨front, table, source, back, split, rfl, rfl, agrees⟩

/-- An allocation that stands in the initializer is the tile of an allocation. -/
theorem allocation_tile (tiling : Tiling code (Entry.code owner) tiles) {size : Int32}
    {array : ArrayKind} {field : MemberRef} {sizeId newId putId : NodeId}
    (stands : Stands code
      [(sizeId, .intConst size), (newId, .newArray array), (putId, .putStatic field)]) :
    ∃ front table back, field = table.owned owner ∧
      tiles = front ++ (.allocate size array table, [(sizeId, .intConst size),
        (newId, .newArray array), (putId, .putStatic field)]) :: back := by
  have held := stands_live stands (putId, .putStatic field) (by simp)
  obtain ⟨front, table, size', array', sizeId', newId', back, rfl, split⟩ :=
    putStatic_tile tiling held
  have stands' := tiling.stands split
  rcases Cleanup.allocations_apart_or_same stands stands' with apart | ⟨rfl, rfl, _⟩
  · exact absurd (by simp) (apart putId (by simp))
  · have sizes := stands_live stands' (sizeId, .intConst size') (by simp)
    rw [stands_live stands (sizeId, .intConst size) (by simp)] at sizes
    have arrays := stands_live stands' (newId, .newArray array') (by simp)
    rw [stands_live stands (newId, .newArray array) (by simp)] at arrays
    cases sizes
    cases arrays
    exact ⟨front, table, back, rfl, split⟩

/-- Where no store is found, there is none among the entries. -/
theorem firstStore_of_missing (view : code.toList = live.flatMap (Entry.code owner))
    (kinds : ∀ index source, .store table index source ∈ live → source.kind = kind)
    (missing : storeAt? code (table.owned owner) index kind owner = none) :
    firstStore live table index = none := by
  obtain ⟨tiles, tiling, rfl⟩ := Tiling.exists_of_toList view
  refine firstStore_eq_none.mpr fun source member => ?_
  obtain ⟨⟨_, segment⟩, present, rfl⟩ := List.mem_map.mp member
  obtain ⟨front, back, split⟩ := List.mem_iff_append.mp present
  obtain ⟨site, shape, atIndex, _⟩ := storeSegment_of_entry (tiling.shapes _ present)
  obtain ⟨head, rest, rfl, start⟩ := shape.head
  rw [kinds _ _ member] at shape
  have found := store?_eq_some.mpr ⟨_, tiling.stands split, shape, start⟩
  exact storeAt?_eq_none.mp missing head site found atIndex

/-- The store that is found is the first one among the entries, and goes with
its entry. -/
theorem firstStore_of_found {store : StoreSite}
    (view : code.toList = live.flatMap (Entry.code owner))
    (kinds : ∀ index source, .store table index source ∈ live → source.kind = kind)
    (hit : storeAt? code (table.owned owner) index kind owner = some store) :
    ∃ front source back, live = front ++ .store table index source :: back ∧
      firstStore front table index = none ∧ source.Agrees owner store ∧
      (code.removeAll store.nodes).toList = (front ++ back).flatMap (Entry.code owner) := by
  obtain ⟨tiles, tiling, rfl⟩ := Tiling.exists_of_toList view
  obtain ⟨id, found, rfl, earliest⟩ := storeAt?_eq_some.mp hit
  obtain ⟨segment, stands, shape, start⟩ := store?_eq_some.mp found
  obtain ⟨front, other, source, back, split, same, _, agrees⟩ := store_tile tiling stands shape
  cases MemberKey.owned_inj.mp same
  refine ⟨front.map (·.1), source, back.map (·.1), by simp [split], ?_, agrees, ?_⟩
  · -- a store in front would have been found first
    refine firstStore_eq_none.mpr fun source' member => ?_
    obtain ⟨⟨_, segment'⟩, present, rfl⟩ := List.mem_map.mp member
    obtain ⟨front', back', split'⟩ := List.mem_iff_append.mp present
    have whole : tiles = front' ++ (.store table store.index source', segment') ::
        (back' ++ (.store table store.index source, segment) :: back) := by
      rw [split, split', List.append_assoc, List.cons_append]
    have inside : (.store table store.index source', segment') ∈ tiles := by simp [whole]
    obtain ⟨site, shape', atIndex, _⟩ := storeSegment_of_entry (tiling.shapes _ inside)
    rw [kinds _ _ (List.mem_map_of_mem inside)] at shape'
    obtain ⟨head, rest, rfl, start'⟩ := shape.head
    obtain ⟨head', rest', rfl, start''⟩ := shape'.head
    have below : head' < head := by
      have ascending := code.items_ascending
      rw [tiling.view, whole, List.flatMap_append, List.flatMap_cons, List.pairwise_append,
        List.pairwise_append] at ascending
      exact ascending.2.1.2.2 _ List.mem_cons_self (head, .getStatic (table.owned owner)) (by simp)
    rw [start] at start'
    cases start'
    exact earliest head' below site
      (store?_eq_some.mpr ⟨_, tiling.stands whole, shape', start''⟩) atIndex
  · rw [← shape.nodes, tiling.toList_remove split, List.map_append]

end Scheme

end LiteralRecovery
