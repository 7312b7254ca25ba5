import LiteralRecovery.Class.Relocate
import LiteralRecovery.ClassFile.StackMap
import LiteralRecovery.Proofs.RelocatedCode

/-! Stack map frames on new code. A list of frames stands for the positions that
its distances lead to. Relocation reads these positions and writes new distances
side by side; it gives up exactly when the new positions cannot be written as a
list of frames, and otherwise the new distances lead to the moved positions. -/
namespace LiteralRecovery

namespace StackMap

/-- The positions of frames behind one at `previous`. -/
def positionsFrom : (previous : Option Nat) → List StackFrame → List Nat
  | _, [] => []
  | previous, frame :: rest =>
    let here := position previous frame.delta.toNat
    here :: positionsFrom (some here) rest

/-- The positions of frames: the first at its distance, every other one past the
position right behind its predecessor. -/
def positions (frames : List StackFrame) : List Nat := positionsFrom none frames

/-- The distance by which a frame at `target` is written. -/
def distance (previous : Option Nat) (target : Nat) : Nat :=
  match previous with
  | none => target
  | some previous => target - previous - 1

/-- A distance leads back to where it was taken from, if that lies ahead. -/
theorem position_distance {previous : Option Nat} {target : Nat}
    (ahead : ∀ before ∈ previous, before < target) :
    position previous (distance previous target) = target := by
  cases previous with
  | none => rfl
  | some before =>
    have below := ahead before rfl
    simp only [position, distance]
    omega

theorem distance_le (previous : Option Nat) (target : Nat) : distance previous target ≤ target := by
  cases previous with
  | none => exact Nat.le_refl _
  | some before =>
    simp only [distance]
    omega

end StackMap

/-! ### One frame -/

/-- What a frame does to locals and stack, however its distance is written. -/
inductive FrameKind where
  | same | oneItem | chop | append | full
deriving DecidableEq

namespace StackFrame

variable {frame : StackFrame} {delta : UInt16}

def kind (frame : StackFrame) : FrameKind :=
  match frame.shape with
  | .same | .sameExtended => .same
  | .oneItem _ | .oneItemExtended _ => .oneItem
  | .chop _ => .chop
  | .append _ => .append
  | .full _ _ => .full

/-- Two frames that say the same at different distances. -/
structure Corresponds (frame moved : StackFrame) : Prop where
  kind : moved.kind = frame.kind
  locals : moved.locals = frame.locals
  stack : moved.stack = frame.stack
  /-- The type byte of a frame that has its distance elsewhere. -/
  typeByte : frame.kind = .chop ∨ frame.kind = .append ∨ frame.kind = .full →
    moved.typeByte = frame.typeByte

/-- A frame in the shortest form that has room for its distance. -/
def WellFormed (frame : StackFrame) : Prop :=
  match frame.shape with
  | .same => frame.delta.toNat ≤ 63 ∧ frame.typeByte.toNat = frame.delta.toNat
  | .sameExtended => 63 < frame.delta.toNat ∧ frame.typeByte = 251
  | .oneItem _ => frame.delta.toNat ≤ 63 ∧ frame.typeByte.toNat = 64 + frame.delta.toNat
  | .oneItemExtended _ => 63 < frame.delta.toNat ∧ frame.typeByte = 247
  | .chop _ | .append _ | .full _ _ => True

@[simp] theorem delta_withDelta (frame : StackFrame) (delta : UInt16) :
    (frame.withDelta delta).delta = delta := by
  unfold withDelta
  split <;> rfl

theorem corresponds_withDelta (frame : StackFrame) (delta : UInt16) :
    frame.Corresponds (frame.withDelta delta) := by
  obtain ⟨shape, old⟩ := frame
  by_cases short : delta.toNat ≤ 63 <;> cases shape <;>
    constructor <;> simp [withDelta, short, kind, locals, stack, typeByte]

theorem wellFormed_withDelta (frame : StackFrame) (delta : UInt16) :
    (frame.withDelta delta).WellFormed := by
  obtain ⟨shape, old⟩ := frame
  have narrow (short : delta.toNat ≤ 63) : delta.toUInt8.toNat = delta.toNat := by
    rw [UInt16.toNat_toUInt8]
    omega
  by_cases short : delta.toNat ≤ 63
  · cases shape <;> simp [withDelta, short, WellFormed, typeByte, narrow short]
    all_goals omega
  · cases shape <;> simp [withDelta, short, WellFormed, typeByte] <;> omega

end StackFrame

/-! ### Lists of frames -/

namespace Relocation

open StackMap

variable {relocation : Relocation} {previous : Option (Nat × Nat)} {frame : StackFrame}
variable {frames rest moved : List StackFrame}

/-- One frame and then the rest, with the three ways to give up. -/
theorem framesFrom_eq (relocation : Relocation) (previous : Option (Nat × Nat)) (frame : StackFrame)
    (rest : List StackFrame) {here : Nat}
    (reached : here = position (previous.map (·.1)) frame.delta.toNat) :
    relocation.framesFrom previous (frame :: rest) =
      if 0x10000 ≤ here then .error .frameOverflow
      else if relocation.limit ≤ relocation.map here then .error (.frameLost here)
      else if (previous.map (·.2)).all (· < relocation.map here) then do
        let rest ← relocation.framesFrom (some (here, relocation.map here)) rest
        return frame.withDelta
          (distance (previous.map (·.2)) (relocation.map here)).toUInt16 :: rest
      else .error (.framesCollapsed (relocation.map here)) := by
  subst reached
  cases previous with
  | none =>
    simp only [framesFrom, Option.map_none, position]
    exact ite_congr rfl (fun _ => rfl) fun _ => ite_congr rfl (fun _ => rfl) fun _ => rfl
  | some pair =>
    simp only [framesFrom, Option.map_some, position, Option.all_some]
    exact ite_congr rfl (fun _ => rfl) fun _ => ite_congr rfl (fun _ => rfl) fun _ =>
      ite_congr decide_eq_true_eq.symm (fun _ => rfl) fun _ => rfl

/-- A frame is moved if its position fits 16 bits, leads to an instruction, and
that one lies behind the one of the frame before. -/
theorem framesFrom_cons :
    relocation.framesFrom previous (frame :: rest) = .ok moved ↔
      ∃ here others, here = position (previous.map (·.1)) frame.delta.toNat ∧
        here < 0x10000 ∧ relocation.map here < relocation.limit ∧
        (∀ before ∈ previous.map (·.2), before < relocation.map here) ∧
        relocation.framesFrom (some (here, relocation.map here)) rest = .ok others ∧
        moved = frame.withDelta
          (distance (previous.map (·.2)) (relocation.map here)).toUInt16 :: others := by
  constructor
  · intro found
    rw [framesFrom_eq _ _ _ _ rfl] at found
    split at found
    · cases found
    · rename_i fits
      split at found
      · cases found
      · rename_i inside
        split at found
        · rename_i ahead
          obtain ⟨others, behind, same⟩ := bind_eq_ok.mp found
          cases same
          refine ⟨_, others, rfl, Nat.lt_of_not_le fits, Nat.lt_of_not_le inside, ?_, behind, rfl⟩
          simpa [Option.all_eq_true] using ahead
        · cases found
  · rintro ⟨here, others, reached, fits, inside, ahead, behind, rfl⟩
    rw [framesFrom_eq _ _ _ _ reached, if_neg (Nat.not_le.mpr fits),
      if_neg (Nat.not_le.mpr inside), if_pos (by simpa [Option.all_eq_true] using ahead), behind]
    rfl

/-- Frames can be moved exactly if all of their positions fit, lead to
instructions, and lead to different ones in their order. -/
theorem framesFrom_isOk_iff :
    (∃ moved, relocation.framesFrom previous frames = .ok moved) ↔
      (∀ here ∈ positionsFrom (previous.map (·.1)) frames, here < 0x10000) ∧
      (∀ here ∈ positionsFrom (previous.map (·.1)) frames, relocation.map here < relocation.limit) ∧
      (∀ before ∈ previous.map (·.2), ∀ here ∈ positionsFrom (previous.map (·.1)) frames,
        before < relocation.map here) ∧
      ((positionsFrom (previous.map (·.1)) frames).map relocation.map).Pairwise (· < ·) := by
  induction frames generalizing previous with
  | nil => simp [framesFrom, positionsFrom]
  | cons frame rest ih =>
    simp only [positionsFrom, List.map_cons, List.forall_mem_cons, List.pairwise_cons]
    generalize reached : position (previous.map (·.1)) frame.delta.toNat = here
    have behind := @ih (some (here, relocation.map here))
    simp only [Option.map_some, Option.mem_some, forall_eq'] at behind
    constructor
    · rintro ⟨moved, found⟩
      obtain ⟨_, others, rfl, fits, inside, ahead, more, _⟩ := framesFrom_cons.mp found
      rw [reached] at fits inside ahead more
      obtain ⟨allFit, allInside, allAhead, ordered⟩ := behind.mp ⟨others, more⟩
      refine ⟨⟨fits, allFit⟩, ⟨inside, allInside⟩, fun before known => ⟨ahead before known, ?_⟩,
        ?_, ordered⟩
      · exact fun later member => Nat.lt_trans (ahead before known) (allAhead later member)
      · simpa using allAhead
    · rintro ⟨⟨fits, allFit⟩, ⟨inside, allInside⟩, ahead, allAhead, ordered⟩
      obtain ⟨others, more⟩ := behind.mpr ⟨allFit, allInside, by simpa using allAhead, ordered⟩
      exact ⟨_, framesFrom_cons.mpr ⟨here, others, reached.symm, fits, inside,
        fun before known => (ahead before known).1, more, rfl⟩⟩

/-- Moved frames stand at the moved positions. -/
theorem positionsFrom_moved (short : relocation.limit ≤ 0x10000)
    (found : relocation.framesFrom previous frames = .ok moved) :
    positionsFrom (previous.map (·.2)) moved =
      (positionsFrom (previous.map (·.1)) frames).map relocation.map := by
  induction frames generalizing previous moved with
  | nil =>
    cases found
    rfl
  | cons frame rest ih =>
    obtain ⟨here, others, reached, _, inside, ahead, behind, rfl⟩ := framesFrom_cons.mp found
    -- the distance fits 16 bits, so nothing of it is lost
    have fits : distance (previous.map (·.2)) (relocation.map here) < 0x10000 := by
      have bound := distance_le (previous.map (·.2)) (relocation.map here)
      omega
    have kept : (distance (previous.map (·.2)) (relocation.map here)).toUInt16.toNat =
        distance (previous.map (·.2)) (relocation.map here) := by
      simpa [Nat.toUInt16_eq] using fits
    simp only [positionsFrom, StackFrame.delta_withDelta, kept, position_distance ahead,
      List.map_cons, ← reached]
    exact congrArg _ (ih behind)

/-- Every moved frame is the old one at another distance. -/
theorem framesFrom_forall₂ (found : relocation.framesFrom previous frames = .ok moved) :
    List.Forall₂ (fun frame later => ∃ delta, later = frame.withDelta delta) frames moved := by
  induction frames generalizing previous moved with
  | nil =>
    cases found
    exact .nil
  | cons frame rest ih =>
    obtain ⟨_, others, _, _, _, _, behind, rfl⟩ := framesFrom_cons.mp found
    exact .cons ⟨_, rfl⟩ (ih behind)

end Relocation

/-- Frames are moved exactly if that can be expressed: every position fits 16
bits, leads to an instruction of the new code, and no two lead to the same or
change places. Then there are as many frames as before, each at the place its
position has moved to, of the same kind and about the same locals and stack, and
in the form that its distance asks for. -/
theorem frames_move_exactly {list : Listing Instruction} {liftedLength : Nat}
    {before after : Constants} {lowered : Lowered}
    (lowering : Yields (lowerCode list liftedLength) before lowered after)
    (frames : List StackFrame) :
    ((∃ moved, lowered.relocation.frames frames = .ok moved) ↔
      (∀ position ∈ StackMap.positions frames, position < 0x10000) ∧
      (∀ position ∈ StackMap.positions frames,
        lowered.relocation.map position < lowered.code.length) ∧
      ((StackMap.positions frames).map lowered.relocation.map).Pairwise (· < ·)) ∧
    ∀ moved, lowered.relocation.frames frames = .ok moved →
      moved.length = frames.length ∧
      StackMap.positions moved = (StackMap.positions frames).map lowered.relocation.map ∧
      List.Forall₂ StackFrame.Corresponds frames moved ∧ ∀ frame ∈ moved, frame.WellFormed := by
  obtain ⟨limit, _, short⟩ := Lowered.limit_eq_length lowering
  constructor
  · have moves := @Relocation.framesFrom_isOk_iff lowered.relocation none frames
    rw [limit] at moves
    simpa [StackMap.positions, Relocation.frames] using moves
  · intro moved found
    have each := Relocation.framesFrom_forall₂ found
    refine ⟨each.length_eq.symm, ?_, ?_, ?_⟩
    · exact Relocation.positionsFrom_moved (limit ▸ Nat.le_of_lt short) found
    · refine each.imp ?_
      rintro frame _ ⟨delta, rfl⟩
      exact frame.corresponds_withDelta delta
    · intro later member
      obtain ⟨index, inside, rfl⟩ := List.mem_iff_getElem.mp member
      obtain ⟨delta, same⟩ := each.get (each.length_eq ▸ inside) inside
      rw [List.get_eq_getElem] at same
      rw [same]
      exact StackFrame.wellFormed_withDelta _ delta

section Thinned

/-- Frames at the first instruction, at the branch and at the end of the code
that loses two instructions. -/
def switchingFrames : List StackFrame := [⟨.append [.int], 0⟩, ⟨.same, 2⟩, ⟨.oneItem .null, 1⟩]

/-- The frames close up; one on an instruction that goes away would come to stand
where the next one does. -/
theorem switchingFrames_close_up : ∃ list lifted lowered after moved,
    Yields (liftCode switching) (.ofPool .empty) list lifted ∧
    Yields (lowerCode ((list.remove 1).remove 2) 6) lifted lowered after ∧
    StackMap.positions switchingFrames = [0, 3, 5] ∧
    lowered.relocation.frames switchingFrames = .ok moved ∧
    StackMap.positions moved = [0, 1, 3] ∧
    ¬ ∃ moved, lowered.relocation.frames [⟨.same, 1⟩, ⟨.same, 1⟩] = .ok moved := by
  obtain ⟨list, lifted, lowered, after, lifting, lowering, length, ranks⟩ :
      ∃ list lifted lowered after, Yields (liftCode switching) (.ofPool .empty) list lifted ∧
        Yields (lowerCode ((list.remove 1).remove 2) 6) lifted lowered after ∧
        lowered.code.length = 4 ∧
        [0, 1, 3, 5].map ((list.remove 1).remove 2).rank = [0, 1, 1, 3] :=
    ⟨_, _, _, _, rfl, rfl, rfl, rfl⟩
  have stems := Listing.stems_of_edits lifting (.tail (.single (.remove 1)) (.remove 2))
  rw [← Lowered.map_eq_rank stems.unclosed stems.size lowering] at ranks
  simp only [List.map_cons, List.map_nil, List.cons.injEq, and_true] at ranks
  obtain ⟨first, taken, branch, last⟩ := ranks
  have placed : StackMap.positions switchingFrames = [0, 3, 5] := rfl
  obtain ⟨movable, moves⟩ := frames_move_exactly lowering switchingFrames
  obtain ⟨moved, found⟩ := movable.mpr (by
    rw [placed]
    simp [first, branch, last, length])
  refine ⟨list, lifted, lowered, after, moved, lifting, lowering, placed, found, ?_, ?_⟩
  · rw [(moves moved found).2.1, placed]
    simp [first, branch, last]
  · rw [(frames_move_exactly lowering _).1]
    rintro ⟨_, _, ordered⟩
    have both : StackMap.positions [⟨.same, 1⟩, ⟨.same, 1⟩] = [1, 3] := rfl
    simp [both, taken, branch] at ordered

end Thinned

end LiteralRecovery
