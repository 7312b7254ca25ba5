import LiteralRecovery.Proofs.ConstantCalls

/-! Room in a constant pool. Entries are numbered one after the other, and a
number has to fit 16 bits; a long takes two numbers, but only the first is looked
at. So whether new values find room is decided by the size of the pool and by
how many numbers the entries before each one take. -/
namespace LiteralRecovery

/-- The first number behind entries that take so many numbers each. -/
def numberBehind (size : Nat) (widths : List Nat) : Nat := widths.foldl (· + ·) size

/-- Of entries that are added one after the other, each with so many numbers, one
would begin at a number that does not fit 16 bits. -/
def Overflows (size : Nat) (widths : List Nat) : Prop :=
  ∃ front width back, widths = front ++ width :: back ∧ 0x10000 ≤ numberBehind size front

section Overflows

variable {size width : Nat} {widths others : List Nat}

@[simp] theorem numberBehind_nil : numberBehind size [] = size := rfl

@[simp] theorem numberBehind_cons :
    numberBehind size (width :: widths) = numberBehind (size + width) widths := rfl

theorem numberBehind_append :
    numberBehind size (widths ++ others) = numberBehind (numberBehind size widths) others :=
  List.foldl_append

@[simp] theorem not_overflows_nil : ¬ Overflows size [] := by
  rintro ⟨front, width, back, split, _⟩
  cases front <;> cases split

@[simp] theorem overflows_cons :
    Overflows size (width :: widths) ↔ 0x10000 ≤ size ∨ Overflows (size + width) widths := by
  constructor
  · rintro ⟨front, next, back, split, beyond⟩
    rcases List.cons_eq_append_iff.mp split with ⟨rfl, _⟩ | ⟨front, rfl, rfl⟩
    · exact .inl beyond
    · exact .inr ⟨front, next, back, rfl, beyond⟩
  · rintro (beyond | ⟨front, next, back, rfl, beyond⟩)
    · exact ⟨[], width, widths, rfl, beyond⟩
    · exact ⟨width :: front, next, back, rfl, beyond⟩

theorem overflows_append :
    Overflows size (widths ++ others) ↔
      Overflows size widths ∨ Overflows (numberBehind size widths) others := by
  induction widths generalizing size with
  | nil => simp
  | cons width widths ih => simp [ih, or_assoc]

end Overflows

/-- How many numbers an entry takes. -/
def Constant.width (constant : Constant) : Nat := if constant.isWide then 2 else 1

theorem ConstantPool.size_place (pool : ConstantPool) (constant : Constant) :
    (pool.place constant).size = pool.size + constant.width := by
  cases wide : constant.isWide <;> simp [place, size, Constant.width, wide]

/-- How many numbers each entry of a new value takes. Only values that an
instruction can load are meant; a reference comes with an owner that may be new
or not. -/
def ConstantKey.widths : ConstantKey → List Nat
  | .integer _ => [1]
  | .long _ => [2]
  | .string _ => [1, 1]
  | _ => []

namespace Constants

variable {constants : Constants} {key : ConstantKey}

/-- The action adds entries that take so many numbers and notes nothing, or fails
because one of them would not get its number. -/
structure Adds (action : ConstantsM PoolError UInt16) (widths : List Nat) : Prop where
  full : ∀ constants, Overflows constants.pool.size widths →
    ∃ after, action constants = (.error .full, after)
  fits : ∀ constants, ¬ Overflows constants.pool.size widths →
    ∃ number after, Yields action constants number after ∧
      after.pool.size = numberBehind constants.pool.size widths ∧ after.index = constants.index

theorem adds_append (constant : Constant) : Adds (append constant) [constant.width] where
  full := by
    intro constants beyond
    have refused : constants.pool.append? constant = none := by
      apply if_neg
      simpa using beyond
    refine ⟨constants, ?_⟩
    rw [append, run_get_bind, refused]
    rfl
  fits := by
    intro constants room
    have added : constants.pool.append? constant =
        some (constants.pool.size.toUInt16, constants.pool.place constant) := by
      apply if_pos
      simpa using room
    refine ⟨constants.pool.size.toUInt16, { constants with pool := constants.pool.place constant },
      ?_, ?_, rfl⟩
    · rw [Yields, append, run_get_bind, added]
      rfl
    · exact constants.pool.size_place constant

theorem adds_bind {action : ConstantsM PoolError UInt16}
    {next : UInt16 → ConstantsM PoolError UInt16} {widths others : List Nat}
    (first : Adds action widths) (second : ∀ number, Adds (next number) others) :
    Adds (action >>= next) (widths ++ others) where
  full := by
    intro constants beyond
    rw [run_bind]
    by_cases early : Overflows constants.pool.size widths
    · obtain ⟨after, failed⟩ := first.full constants early
      exact ⟨after, by rw [failed]⟩
    · obtain ⟨number, between, added, size, _⟩ := first.fits constants early
      rw [added]
      apply (second number).full
      rw [size]
      exact (overflows_append.mp beyond).resolve_left early
  fits := by
    intro constants room
    rw [overflows_append, not_or] at room
    obtain ⟨number, between, added, size, index⟩ := first.fits constants room.1
    obtain ⟨last, after, added', size', index'⟩ := (second number).fits between (size ▸ room.2)
    refine ⟨last, after, yields_bind.mpr ⟨number, between, added, added'⟩, ?_, index'.trans index⟩
    rw [size', size, numberBehind_append]

/-- A value that an instruction can load is noted when its entries are there. -/
theorem intern_adds (loadable : key.isLoadable = true) :
    ∃ add, intern key = noted key add ∧ Adds add key.widths := by
  cases key with
  | integer value => exact ⟨_, rfl, adds_append _⟩
  | long value => exact ⟨_, rfl, adds_append _⟩
  | string text => exact ⟨_, rfl, adds_bind (adds_append _) fun _ => adds_append _⟩
  | _ => cases loadable

/-- A new value is refused for want of numbers only. -/
theorem intern_full (loadable : key.isLoadable = true)
    (unknown : constants.index.lookup key = none)
    (beyond : Overflows constants.pool.size key.widths) :
    ∃ after, intern key constants = (.error .full, after) := by
  obtain ⟨add, same, adds⟩ := intern_adds loadable
  obtain ⟨after, failed⟩ := adds.full constants beyond
  refine ⟨after, ?_⟩
  rw [same, noted, run_get_bind]
  simp only [unknown]
  rw [run_bind, failed]

theorem intern_fits (loadable : key.isLoadable = true)
    (unknown : constants.index.lookup key = none)
    (room : ¬ Overflows constants.pool.size key.widths) :
    ∃ number after, Yields (intern key) constants number after ∧
      after.pool.size = numberBehind constants.pool.size key.widths ∧
      after.index = constants.index.note key number := by
  obtain ⟨add, same, adds⟩ := intern_adds loadable
  obtain ⟨number, between, added, size, index⟩ := adds.fits constants room
  refine ⟨number, between.withNote key number, ?_, size, ?_⟩
  · rw [same]
    exact (yields_noted_of_new unknown).mpr ⟨between, added, rfl⟩
  · rw [withNote, index]

end Constants

end LiteralRecovery
