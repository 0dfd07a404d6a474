import MemoSequence.Node
set_option autoImplicit false

namespace MemoSequence

class Basis (ι : Type) where
  Carrier : ι → Type
  decEq : DecidableEq ι

/-- Element types by name, so that the cells of all sequences lie in one store. -/
inductive Kind (ι : Type) where
  | base (i : ι)
  | nat
  | option (k : Kind ι)
  | pair (a b : Kind ι)
  | seq (k : Kind ι)
  deriving DecidableEq

variable {ι : Type} [Basis ι]

instance (priority := low) Basis.instDecidableEq : DecidableEq ι := Basis.decEq

@[reducible] def El : Kind ι → Type
  | .base i => Basis.Carrier i
  | .nat => Nat
  | .option k => Option (El k)
  | .pair a b => El a × El b
  | .seq k => Node (El k)

abbrev Sequence (k : Kind ι) : Type := Node (El k)

end MemoSequence
