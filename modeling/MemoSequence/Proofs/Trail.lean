import MemoSequence.Proofs.Ticks
set_option autoImplicit false

/-!
# Trails

What can be told of a sequence without looking at its cells is its outermost form and its trail: the
elements in order, each with the form of what is left after it. A trail is a weak sequence, so an
element may stand behind ticks.

Three operations make the trails of all sequences. `chained` puts parts one after the other; as long as
other parts follow, what is left has the form of a composite. `stepped` is what a deferred part makes of
its input, an element at a time; what is left after an element is deferred again and stands behind a
tick. `flattened` chains each element of a trail of sequences with the deferred others.
-/
namespace MemoSequence
open Stream' (Seq WSeq)
open Stream'.WSeq (think)

/-- The elements of a sequence, each with the form of what is left after it. -/
abbrev Trail (α : Type) : Type := WSeq (α × String)

/-- What can be told of a sequence without its cells. -/
structure Shown (α : Type) where
  form : String
  trail : Trail α

namespace Trail
variable {α β τ : Type}

def elements (d : Trail α) : WSeq α := d.map Prod.fst

def inside (d : Trail α) : Trail α := d.map fun p => (p.1, "Composite")

@[simp] theorem inside_nil : inside (.nil : Trail α) = .nil := rfl

@[simp] theorem inside_think (d : Trail α) : inside (think d) = think (inside d) :=
  WSeq.map_think _ d

@[simp] theorem inside_cons (p : α × String) (d : Trail α) :
    inside (.cons p d) = .cons (p.1, "Composite") (inside d) := WSeq.map_cons _ p d

@[simp] theorem inside_append (d e : Trail α) :
    inside (d.append e) = (inside d).append (inside e) := WSeq.map_append _ d e

@[simp] theorem inside_inside (d : Trail α) : inside (inside d) = inside d :=
  (WSeq.map_comp _ _ d).symm

@[simp] theorem elements_inside (d : Trail α) : elements (inside d) = elements d :=
  (WSeq.map_comp _ _ d).symm

@[simp] theorem elements_append (d e : Trail α) :
    elements (d.append e) = (elements d).append (elements e) := WSeq.map_append _ d e

section Chained

def chained : List (Trail α) → Trail α
  | [] => .nil
  | [d] => d
  | d :: e :: rest => (inside d).append (chained (e :: rest))

@[simp] theorem chained_nil : chained ([] : List (Trail α)) = .nil := rfl

@[simp] theorem chained_singleton (d : Trail α) : chained [d] = d := rfl

theorem chained_cons (d : Trail α) {rest : List (Trail α)} (h : rest ≠ []) :
    chained (d :: rest) = (inside d).append (chained rest) := by
  cases rest with
  | nil => exact absurd rfl h
  | cons e rest => rfl

@[simp] theorem chained_nil_cons (rest : List (Trail α)) : chained (.nil :: rest) = chained rest := by
  cases rest with
  | nil => rfl
  | cons e rest => rw [chained_cons _ (List.cons_ne_nil e rest), inside_nil, WSeq.nil_append]

theorem chained_append (a : List (Trail α)) {b : List (Trail α)} (h : b ≠ []) :
    chained (a ++ b) = (inside (chained a)).append (chained b) := by
  induction a with
  | nil => simp
  | cons d rest ih =>
    rw [List.cons_append, chained_cons d (List.append_ne_nil_of_right_ne_nil rest h), ih,
      ← WSeq.append_assoc]
    congr 1
    cases rest with
    | nil => simp
    | cons e rest =>
      rw [chained_cons d (List.cons_ne_nil e rest), inside_append, inside_inside]

theorem chained_chained (a b : List (Trail α)) : chained (chained a :: b) = chained (a ++ b) := by
  cases b with
  | nil => simp
  | cons e rest =>
    rw [chained_append a (List.cons_ne_nil e rest), chained_cons _ (List.cons_ne_nil e rest)]

@[simp] theorem chained_cons_cons (p : α × String) (d : Trail α) (rest : List (Trail α)) :
    chained (.cons p d :: rest) =
      .cons (p.1, if rest = [] then p.2 else "Composite") (chained (d :: rest)) := by
  cases rest with
  | nil => rfl
  | cons e rest =>
    have he := List.cons_ne_nil e rest
    rw [chained_cons _ he, chained_cons _ he, inside_cons, WSeq.cons_append, if_neg he]

@[simp] theorem chained_think (d : Trail α) (rest : List (Trail α)) :
    chained (think d :: rest) = think (chained (d :: rest)) := by
  cases rest with
  | nil => rfl
  | cons e rest =>
    have he := List.cons_ne_nil e rest
    rw [chained_cons _ he, chained_cons _ he, inside_think, WSeq.think_append]

theorem strict_chained (rest : List (Trail α)) : Strict fun d => chained (d :: rest) :=
  fun d => chained_think d rest

theorem elements_chained (d : Trail α) (rest : List (Trail α)) :
    elements (chained (d :: rest)) = (elements d).append (elements (chained rest)) := by
  cases rest with
  | nil => exact (WSeq.append_nil _).symm
  | cons e rest =>
    rw [chained_cons _ (List.cons_ne_nil e rest), elements_append, elements_inside]

end Chained

section Stepped

/-- What a deferred part makes of its input. A step gives nothing, and then the part ends; or an element
and, if the part goes on, the state in which it takes the next one. -/
def stepped (step : τ → α → Option (β × Option τ)) (t : τ) (d : Trail α) : Trail β :=
  unfolded
    (fun
      | none => none
      | some (true, t, d) => some (none, some (false, t, d))
      | some (false, t, d) => match Seq.destruct d with
        | none => none
        | some (none, rest) => some (none, some (false, t, rest))
        | some (some x, rest) => match step t x.1 with
          | none => none
          | some (y, none) => some (some (y, "Empty"), none)
          | some (y, some t) => some (some (y, "Lazy"), some (true, t, rest)))
    (some (false, t, d))

variable {step : τ → α → Option (β × Option τ)} {t t' : τ} {x : α} {y : β}

@[simp] theorem stepped_nil (step : τ → α → Option (β × Option τ)) (t : τ) :
    stepped step t .nil = .nil := unfolded_nil (by simp)

@[simp] theorem stepped_think (step : τ → α → Option (β × Option τ)) (t : τ) (d : Trail α) :
    stepped step t (think d) = think (stepped step t d) := unfolded_think (by simp)

theorem strict_stepped (step : τ → α → Option (β × Option τ)) (t : τ) : Strict (stepped step t) :=
  stepped_think step t

theorem stepped_cons_stop (form : String) (d : Trail α) (h : step t x = none) :
    stepped step t (.cons (x, form) d) = .nil := unfolded_nil (by simp [h])

theorem stepped_cons_last (form : String) (d : Trail α) (h : step t x = some (y, none)) :
    stepped step t (.cons (x, form) d) = .cons (y, "Empty") .nil := by
  rw [stepped, unfolded_cons (x := (y, "Empty")) (u := none) (by simp [h])]
  exact congrArg (WSeq.cons (y, "Empty")) (unfolded_nil rfl)

theorem stepped_cons_more (form : String) (d : Trail α) (h : step t x = some (y, some t')) :
    stepped step t (.cons (x, form) d) = .cons (y, "Lazy") (think (stepped step t' d)) := by
  rw [stepped, unfolded_cons (x := (y, "Lazy")) (u := some (true, t', d)) (by simp [h])]
  exact congrArg (WSeq.cons (y, "Lazy")) (unfolded_think rfl)

end Stepped

section Operations

def mapped (g : α → β) : Trail α → Trail β := stepped (fun (_ : Unit) x => some (g x, some ())) ()

def taken (count : ℕ) : Trail α → Trail α :=
  stepped (fun n x => some (x, if n ≤ 1 then none else some (n - 1))) count

def takenWhile (q : α → Bool) : Trail α → Trail α :=
  stepped (fun (_ : Unit) x => if q x then some (x, some ()) else none) ()

def scanned (g : τ × α → β × τ) : τ → Trail α → Trail β :=
  stepped fun t x => some ((g (t, x)).1, some (g (t, x)).2)

@[simp] theorem mapped_nil (g : α → β) : mapped g .nil = .nil := stepped_nil _ _

@[simp] theorem taken_nil (count : ℕ) : taken count (.nil : Trail α) = .nil := stepped_nil _ _

@[simp] theorem takenWhile_nil (q : α → Bool) : takenWhile q .nil = .nil := stepped_nil _ _

@[simp] theorem scanned_nil (g : τ × α → β × τ) (t : τ) : scanned g t .nil = .nil := stepped_nil _ _

theorem strict_mapped (g : α → β) : Strict (mapped g) := strict_stepped _ _

theorem strict_taken (count : ℕ) : Strict (taken count : Trail α → Trail α) := strict_stepped _ _

theorem strict_takenWhile (q : α → Bool) : Strict (takenWhile q) := strict_stepped _ _

theorem strict_scanned (g : τ × α → β × τ) (t : τ) : Strict (scanned g t) := strict_stepped _ _

@[simp] theorem mapped_cons (g : α → β) (x : α) (form : String) (d : Trail α) :
    mapped g (.cons (x, form) d) = .cons (g x, "Lazy") (think (mapped g d)) :=
  stepped_cons_more form d rfl

theorem taken_cons (n : ℕ) (x : α) (form : String) (d : Trail α) :
    taken (n + 1) (.cons (x, form) d) =
      if n = 0 then .cons (x, "Empty") .nil else .cons (x, "Lazy") (think (taken n d)) := by
  cases n with
  | zero => exact stepped_cons_last form d rfl
  | succ n => exact stepped_cons_more form d rfl

theorem takenWhile_cons (q : α → Bool) (x : α) (form : String) (d : Trail α) :
    takenWhile q (.cons (x, form) d) =
      if q x then .cons (x, "Lazy") (think (takenWhile q d)) else .nil := by
  cases hq : q x with
  | true => exact stepped_cons_more form d (by simp [hq])
  | false => exact stepped_cons_stop form d (by simp [hq])

@[simp] theorem scanned_cons (g : τ × α → β × τ) (t : τ) (x : α) (form : String) (d : Trail α) :
    scanned g t (.cons (x, form) d) =
      .cons ((g (t, x)).1, "Lazy") (think (scanned g (g (t, x)).2 d)) :=
  stepped_cons_more form d rfl

def flattened (d : Trail (Shown α)) : Trail α :=
  ((mapped id d).map fun p => inside p.1.trail).join

@[simp] theorem flattened_nil : flattened (.nil : Trail (Shown α)) = .nil := by
  simp [flattened, mapped]

@[simp] theorem flattened_think (d : Trail (Shown α)) :
    flattened (think d) = think (flattened d) := by
  simp [flattened, mapped]

@[simp] theorem flattened_cons (x : Shown α) (form : String) (d : Trail (Shown α)) :
    flattened (.cons (x, form) d) =
      think ((inside x.trail).append (think (flattened d))) := by
  simp [flattened]

theorem strict_flattened : Strict (flattened : Trail (Shown α) → Trail α) := flattened_think

def listed : List α → Trail α
  | [] => .nil
  | x :: rest => .cons (x, if rest = [] then "Empty" else "Generated") (listed rest)

end Operations

end Trail

namespace Shown
variable {α : Type}

def empty : Shown α := ⟨"Empty", .nil⟩

def deferred (d : Trail α) : Shown α := ⟨"Lazy", think d⟩

def cons (x : α) (s : Shown α) : Shown α := ⟨"One", .cons (x, s.form) s.trail⟩

def concat (a b : Shown α) : Shown α :=
  if b.form = "Empty" then a
  else if a.form = "Empty" then b
  else ⟨"Composite", Trail.chained [a.trail, b.trail]⟩

def ofList (elements : List α) : Shown α :=
  ⟨if elements = [] then "Empty" else "Generated", Trail.listed elements⟩

def terminated (s : Shown α) : Shown (Option α) :=
  (deferred (.mapped some s.trail)).concat (.cons none .empty)

theorem trail_concat_deferred {a : Shown α} (ha : a.form = "Empty" → a.trail = .nil)
    (d : Trail α) : (a.concat (deferred d)).trail = (Trail.inside a.trail).append (think d) := by
  have hb : ¬ (deferred d).form = "Empty" := by simp [deferred]
  unfold concat
  rw [if_neg hb]
  split
  · next he => rw [ha he, Trail.inside_nil, WSeq.nil_append]; rfl
  · rfl

end Shown

end MemoSequence
