import Std.Data.HashSet
import MemoSequence.Run
set_option autoImplicit false

namespace MemoSequence

namespace Node
variable {α : Type}

mutual

def nodes : Node α → Nat
  | .empty => 1
  | .one _ tail => 1 + nodes tail
  | .composite ⟨⟨front, _⟩, ⟨back, _⟩⟩ => 1 + nodesOf front + nodesOf back
  | .generated _ _ _ => 1
  | .lazy _ => 1

def nodesOf : List (Node α) → Nat
  | [] => 0
  | s :: rest => nodes s + nodesOf rest

end

theorem nodesOf_append (a b : List (Node α)) : nodesOf (a ++ b) = nodesOf a + nodesOf b := by
  induction a with
  | nil => simp [nodesOf]
  | cons s rest ih => simp only [List.cons_append, nodesOf, ih]; omega

theorem nodesOf_members (parts : Segments (Node α)) :
    nodesOf parts.members < nodes (.composite parts) := by
  obtain ⟨⟨front, _⟩, ⟨back, _⟩⟩ := parts
  simp only [Segments.members, nodesOf_append, nodes]
  omega

end Node

namespace Store
variable {ι : Type} [Basis ι]

def unvisited (st : Store ι) (visited : Std.HashSet Nat) : Nat :=
  (List.range st.cells.size).countP fun id => !visited.contains id

theorem unvisited_insert {st : Store ι} {visited : Std.HashSet Nat} {id : Nat}
    (h : id < st.cells.size) (hv : visited.contains id = false) :
    st.unvisited (visited.insert id) < st.unvisited visited := by
  have keep : ∀ i, (!(visited.insert id).contains i) = true → (!visited.contains i) = true := by
    simp +contextual [Std.HashSet.contains_insert]
  unfold unvisited
  generalize st.cells.size = n at h
  induction n with
  | zero => omega
  | succ n ih =>
    simp only [List.range_succ, List.countP_append, List.countP_singleton]
    by_cases hn : id = n
    · subst hn
      have := List.countP_mono_left (l := List.range id) fun i _ => keep i
      simp only [hv, Std.HashSet.contains_insert_self]
      simp only [Bool.not_true, Bool.not_false, Bool.false_eq_true, if_true, if_false]
      omega
    · have := ih (by omega)
      have hb : (id == n) = false := by simpa using hn
      rw [Std.HashSet.contains_insert, hb, Bool.false_or]
      omega

theorem lt_size_of_peek? {st : Store ι} {k : Kind ι} {id : Nat} {value : Sequence k}
    (h : st.peek? k id = some value) : id < st.cells.size := by
  unfold peek? find? at h
  split at h
  · next hc => exact (Array.getElem?_eq_some_iff.1 hc).1
  · simp at h

/-- Whether a source without limit can be reached from one of the pending nodes, through tails, parts and kept
results. Each cell is looked into once at most, and none is forced. -/
def reachesEndless (st : Store ι) {k : Kind ι} (visited : Std.HashSet Nat) :
    (pending : List (Sequence k)) → Bool
  | [] => false
  | .empty :: rest => st.reachesEndless visited rest
  | .one _ tail :: rest => st.reachesEndless visited (tail :: rest)
  | .composite parts :: rest => st.reachesEndless visited (parts.members ++ rest)
  | .generated _ none _ :: _ => true
  | .generated _ (some _) _ :: rest => st.reachesEndless visited rest
  | .lazy id :: rest =>
    if visited.contains id then st.reachesEndless visited rest
    else match _peeked : st.peek? k id with
      | some value => st.reachesEndless (visited.insert id) (value :: rest)
      | none => st.reachesEndless visited rest
termination_by pending => (st.unvisited visited, Node.nodesOf pending)
decreasing_by
  · exact Prod.Lex.right _ (by simp only [Node.nodesOf, Node.nodes]; omega)
  · exact Prod.Lex.right _ (by simp only [Node.nodesOf, Node.nodes]; omega)
  · have := Node.nodesOf_members parts
    exact Prod.Lex.right _ (by simp only [Node.nodesOf, Node.nodesOf_append]; omega)
  · exact Prod.Lex.right _ (by simp only [Node.nodesOf, Node.nodes]; omega)
  · exact Prod.Lex.right _ (by simp only [Node.nodesOf, Node.nodes]; omega)
  · exact Prod.Lex.left _ _ (unvisited_insert (lt_size_of_peek? _peeked) (by simp_all))
  · exact Prod.Lex.right _ (by simp only [Node.nodesOf, Node.nodes]; omega)

def isUnbounded (st : Store ι) {k : Kind ι} (s : Sequence k) : Bool := st.reachesEndless ∅ [s]

end Store

end MemoSequence
