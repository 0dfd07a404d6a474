set_option autoImplicit false

namespace MemoSequence

universe u

structure Stack (σ : Type u) where
  items : List σ
  height : Nat

namespace Stack
variable {σ : Type u}

def empty : Stack σ := ⟨[], 0⟩

def isEmpty (s : Stack σ) : Bool := s.items.isEmpty

def push (s : Stack σ) (x : σ) : Stack σ := ⟨x :: s.items, s.height + 1⟩

def uncons? (s : Stack σ) : Option (σ × Stack σ) :=
  match s.items with
  | [] => none
  | x :: xs => some (x, ⟨xs, s.height - 1⟩)

def reversed (s : Stack σ) : Stack σ := ⟨s.items.reverse, s.height⟩

def Sized (s : Stack σ) : Prop := s.height = s.items.length

theorem sized_empty : (empty : Stack σ).Sized := rfl

theorem Sized.push {s : Stack σ} (h : s.Sized) (x : σ) : (s.push x).Sized := by
  simp only [Sized, Stack.push, List.length_cons] at h ⊢
  omega

theorem Sized.reversed {s : Stack σ} (h : s.Sized) : s.reversed.Sized := by
  simpa [Sized, Stack.reversed] using h

theorem Sized.uncons {s rest : Stack σ} {x : σ} (h : s.Sized) (hu : s.uncons? = some (x, rest)) :
    rest.Sized := by
  unfold uncons? at hu
  split at hu
  · simp at hu
  · next y ys hs =>
    simp only [Option.some.injEq, Prod.mk.injEq] at hu
    obtain ⟨-, rfl⟩ := hu
    simp only [Sized, hs, List.length_cons] at h ⊢
    omega

end Stack

/-- A persistent double-ended queue. The `back` holds the later segments in reverse, and is turned over when the
`front` has run dry. -/
structure Segments (σ : Type u) where
  front : Stack σ
  back : Stack σ

namespace Segments
variable {σ : Type u}

/-- Every pending segment, in traversal order. -/
def contents (s : Segments σ) : List σ := s.front.items ++ s.back.items.reverse

def pair (first second : σ) : Segments σ := ⟨(Stack.empty.push second).push first, .empty⟩

def isEmpty (s : Segments σ) : Bool := s.front.isEmpty && s.back.isEmpty

def pushFront (s : Segments σ) (x : σ) : Segments σ := { s with front := s.front.push x }

def pushBack (s : Segments σ) (x : σ) : Segments σ := { s with back := s.back.push x }

def popFront? (s : Segments σ) : Option (σ × Segments σ) :=
  match s.front.uncons? with
  | some (x, front) => some (x, { s with front })
  | none => match s.back.reversed.uncons? with
    | some (x, front) => some (x, ⟨front, .empty⟩)
    | none => none

/-- Every pending segment in no particular order: the later ones come out last first. -/
def members (s : Segments σ) : List σ := s.front.items ++ s.back.items

def size (s : Segments σ) : Nat := s.front.height + s.back.height

def Sized (s : Segments σ) : Prop := s.front.Sized ∧ s.back.Sized

@[simp] theorem contents_pair (a b : σ) : (pair a b).contents = [a, b] := rfl

@[simp] theorem contents_pushFront (s : Segments σ) (x : σ) :
    (s.pushFront x).contents = x :: s.contents := rfl

@[simp] theorem contents_pushBack (s : Segments σ) (x : σ) :
    (s.pushBack x).contents = s.contents ++ [x] := by
  simp [contents, pushBack, Stack.push]

theorem isEmpty_iff (s : Segments σ) : s.isEmpty = true ↔ s.contents = [] := by
  simp [isEmpty, Stack.isEmpty, contents]

theorem members_perm (s : Segments σ) : s.members.Perm s.contents :=
  List.Perm.append_left _ (List.reverse_perm _).symm

theorem popFront?_contents (s : Segments σ) :
    s.popFront?.map (fun p => p.1 :: p.2.contents) =
      if s.contents = [] then none else some s.contents := by
  obtain ⟨⟨front, m⟩, ⟨back, n⟩⟩ := s
  cases front with
  | cons x xs => simp [popFront?, Stack.uncons?, contents]
  | nil =>
    cases h : back.reverse with
    | nil => simp [popFront?, Stack.uncons?, Stack.reversed, contents, h]
    | cons x xs => simp [popFront?, Stack.uncons?, Stack.reversed, contents, Stack.empty, h]

theorem popFront?_eq_none (s : Segments σ) : s.popFront? = none ↔ s.contents = [] := by
  have h := popFront?_contents s
  cases hp : s.popFront? <;> by_cases hc : s.contents = [] <;> simp_all

theorem contents_popFront {s rest : Segments σ} {x : σ} (h : s.popFront? = some (x, rest)) :
    s.contents = x :: rest.contents := by
  have hc := popFront?_contents s
  rw [h] at hc
  by_cases he : s.contents = [] <;> simp_all

end Segments

end MemoSequence
