import MemoSequence.Proofs.Demand.Building
set_option autoImplicit false

namespace MemoSequence

variable {ι : Type} [Basis ι]

inductive Val.Opens : {k : Kind ι} → Val (.seq k) → Plan k → Prop
  | here {k : Kind ι} {s : Sequence k} (h : s.Closed) : Opens (.here s) (.given s)
  | built {k : Kind ι} {p : Plan k} (h : p.Closed) : Opens (.built p) p

theorem Val.Opens.closed {k : Kind ι} {v : Val (.seq k)} {q : Plan k} (h : v.Opens q) : q.Closed := by
  cases h with
  | here h => exact h
  | built h => exact h

/-- What a stage makes of the answer of its input: the notes of its call, and a feed. -/
inductive Stage.Leaves : {a k : Kind ι} → Stage a k → Option (Val a × Feed a) → List Note → Feed k → Prop
  | ended {a k : Kind ι} (S : Stage a k) : Leaves S none [] .nil
  | went {a k : Kind ι} {σ : Type} {W : Worker a k σ} {note : σ × El a → Option Note} {s s' : σ} {x : El a}
      {y : El k} {I : Feed a} (h : W.head (s, x) = some (.element y, s')) :
      Leaves (.worker W note s) (some (.here x, I)) (note (s, x)).toList
        (.item (.here y) (.through (.worker W note s') I))
  | stopped {a k : Kind ι} {σ : Type} {W : Worker a k σ} {note : σ × El a → Option Note} {s : σ} {x : El a}
      {I : Feed a} (h : W.head (s, x) = none) :
      Leaves (.worker W note s) (some (.here x, I)) (note (s, x)).toList .nil
  | passed {a k : Kind ι} {σ : Type} {W : Worker a k σ} {note : σ × El a → Option Note} {s s' : σ} {v : Val a}
      {I : Feed a} (h : ∀ x, ∃ y, W.head (s, x) = some (.element y, s')) (hnote : ∀ call, note call = none) :
      Leaves (.worker W note s) (some (v, I)) [] (.item .anything (.through (.worker W note s') I))
  | built {a k : Kind ι} {f : El a → Plan k} {note : El a → Option Note} {v : Val a} {q : Plan k} {I : Feed a}
      (h : v.Becomes f q) (hnote : ∀ x, note x = none) :
      Leaves (.mapPlan f note) (some (v, I)) [] (.item (.built q) (.through (.mapPlan f note) I))
  | flattened {k : Kind ι} {v : Val (.seq k)} {q : Plan k} {I : Feed (.seq k)} (h : v.Opens q) :
      Leaves .flatten (some (v, I)) [] (q.feed.append (.through .flatten I))
  | last {k : Kind ι} {v : Val k} {I : Feed k} : Leaves (.take 0) (some (v, I)) [] (.item v .nil)
  | taken {k : Kind ι} {v : Val k} {I : Feed k} {more : ℕ} :
      Leaves (.take (more + 1)) (some (v, I)) [] (.item v (.through (.take more) I))

mutual

/-- Asking a feed for its first element calls for `l`, and gives the element and what is left. -/
inductive Feed.Pulls : {k : Kind ι} → Feed k → List Note → Option (Val k × Feed k) → Prop
  | nil {k : Kind ι} : Pulls (.nil : Feed k) [] none
  | item {k : Kind ι} (v : Val k) (F : Feed k) : Pulls (.item v F) [] (some (v, F))
  | numbered {k : Kind ι} {index : ℕ} {limit : Option ℕ} {source : Source (El k)} {x : El k}
      (h : source.at? index = some x) (F : Feed k) :
      Pulls (.numbered index limit source F) (source.note index).toList
        (some (.here x, (Feed.ofParts (Node.following index limit source).parts).append F))
  | stage {a k : Kind ι} {S : Stage a k} {I : Feed a} {F G : Feed k} {l l' l'' : List Note}
      {answer : Option (Val a × Feed a)} {answer' : Option (Val k × Feed k)} (hinput : Pulls I l answer)
      (hleaves : S.Leaves answer l' G) (hrest : Pulls (G.append F) l'' answer') :
      Pulls (.stage S I F) (l ++ l' ++ l'') answer'
  | skip {k : Kind ι} {I R F : Feed k} {count : ℕ} {vs : List (Val k)} {l l' : List Note}
      {answer : Option (Val k × Feed k)} (hinput : Draws I count vs l R)
      (hrest : Pulls (R.append F) l' answer) : Pulls (.skip I count F) (l ++ l') answer

/-- Asking a feed for `n` elements in a row; behind its end nothing is left. -/
inductive Feed.Draws : {k : Kind ι} → Feed k → ℕ → List (Val k) → List Note → Feed k → Prop
  | zero {k : Kind ι} (F : Feed k) : Draws F 0 [] [] F
  | more {k : Kind ι} {F G R : Feed k} {n : ℕ} {v : Val k} {vs : List (Val k)} {l l' : List Note}
      (hfirst : Pulls F l (some (v, G))) (hrest : Draws G n vs l' R) :
      Draws F (n + 1) (v :: vs) (l ++ l') R
  | ended {k : Kind ι} {F : Feed k} {n : ℕ} {l : List Note} (h : Pulls F l none) :
      Draws F (n + 1) [] l .nil

end

end MemoSequence
