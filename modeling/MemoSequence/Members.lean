set_option autoImplicit false

namespace MemoSequence.Members
universe u
variable {α : Type u}

def find? (key : String) : List (String × α) → Option α
  | [] => none
  | (k, value) :: rest => if k = key then some value else find? key rest

def insert (key : String) (value : α) : List (String × α) → List (String × α)
  | [] => [(key, value)]
  | (k, v) :: rest =>
    if key < k then (key, value) :: (k, v) :: rest
    else if k = key then (key, value) :: rest
    else (k, v) :: insert key value rest

def sort (members : List (String × α)) : List (String × α) :=
  members.mergeSort fun a b => a.1 ≤ b.1

def lastOfEach : List (String × α) → List (String × α)
  | [] => []
  | [member] => [member]
  | (k, v) :: (k', v') :: rest =>
    if k = k' then lastOfEach ((k', v') :: rest) else (k, v) :: lastOfEach ((k', v') :: rest)

/-- The members of an object written in this order: a repeated key keeps its last value. -/
def ofList (members : List (String × α)) : List (String × α) := lastOfEach (sort members)

def Ordered (members : List (String × α)) : Prop := members.Pairwise fun a b => a.1 < b.1

def erase (key : String) : List (String × α) → List (String × α)
  | [] => []
  | (k, v) :: rest => if k = key then rest else (k, v) :: erase key rest

end MemoSequence.Members
