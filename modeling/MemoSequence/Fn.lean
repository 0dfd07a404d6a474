set_option autoImplicit false

namespace MemoSequence

abbrev Note := Nat

/-- A pure function, and the note that a call of it leaves in the journal, if any. -/
structure Fn (α β : Type) where
  apply : α → β
  note : α → Option Note

namespace Fn
variable {α β : Type}

def silent (f : α → β) : Fn α β := ⟨f, fun _ => none⟩

/-- A function each of whose calls leaves the note 0, so that the journal counts them. -/
def counted (f : α → β) : Fn α β := ⟨f, fun _ => some 0⟩

end Fn

end MemoSequence
