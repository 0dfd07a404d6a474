import MemoSequence.Proofs.Endlessness
import MemoSequence.Proofs.Transparency
set_option autoImplicit false

namespace MemoSequence
open Stream' (Seq WSeq)
open Stream'.WSeq (think)
open Sequence (Formed Queued Tells elements trail)

section WeakSequences
variable {α : Type}

theorem ticks_equiv (n : ℕ) (d : WSeq α) : think^[n] d ~ʷ d := by
  induction n with
  | zero => exact .refl d
  | succ n ih =>
    rw [Function.iterate_succ_apply']
    exact (WSeq.think_equiv _).trans ih

theorem not_cons_equiv_nil (x : α) (d : WSeq α) : ¬ WSeq.cons x d ~ʷ .nil := by
  intro h
  have hx := (WSeq.mem_congr h x).1 (WSeq.mem_cons d x)
  exact WSeq.notMem_nil x hx

/-- What a weak sequence puts out at a position, an element or a tick, unless it has ended. -/
def output (d : WSeq α) (n : ℕ) : Option (Option α) := Seq.get? d n

@[simp] theorem output_cons_zero (x : α) (d : WSeq α) : output (.cons x d) 0 = some (some x) := rfl

@[simp] theorem output_cons_succ (x : α) (d : WSeq α) (n : ℕ) :
    output (.cons x d) (n + 1) = output d n := rfl

def inOrder (parts : List (WSeq α)) : WSeq α := parts.foldr WSeq.append .nil

theorem Trail.elements_ticks (n : ℕ) (d : Trail α) :
    Trail.elements (think^[n] d) = think^[n] d.elements := (strict_map _).ticks n d

theorem Trail.elements_chained_eq (parts : List (Trail α)) :
    (Trail.chained parts).elements = inOrder (parts.map Trail.elements) := by
  induction parts with
  | nil => rfl
  | cons d rest ih =>
    rw [Trail.elements_chained, ih]
    rfl

end WeakSequences

theorem Shown.concat_assoc {α : Type} (a b c : Shown α) :
    (a.concat b).concat c = a.concat (b.concat c) := by
  by_cases hc : c.form = "Empty"
  · simp [concat, hc]
  · by_cases hb : b.form = "Empty"
    · simp [concat, hb, hc]
    · by_cases ha : a.form = "Empty"
      · simp [concat, ha, hb, hc]
      · have hchain : Trail.chained [Trail.chained [a.trail, b.trail], c.trail] =
            Trail.chained [a.trail, Trail.chained [b.trail, c.trail]] := by
          rw [Trail.chained_chained]
          rfl
        simp [concat, ha, hb, hc, hchain]

namespace Source
variable {α β : Type} {source : Source α} {limit : Option Nat}

theorem Below.of_le {i j : Nat} (h : Below limit j) (hij : i ≤ j) : Below limit i :=
  fun l hl => lt_of_le_of_lt hij (h l hl)

theorem output_trail (item : α → β) (hs : ∀ i, Below limit i → ∃ x, source.at? i = some x)
    (index n : ℕ) :
    output (source.trail item limit index).elements n =
      if Below limit (index + n) then (source.at? (index + n)).map fun x => some (item x)
      else none := by
  induction n generalizing index with
  | zero =>
    by_cases hi : Below limit index
    · obtain ⟨x, hx⟩ := hs index hi
      rw [trail_of_below hi hx, Trail.elements, WSeq.map_cons, output_cons_zero]
      simp only [Nat.add_zero, if_pos hi, hx, Option.map_some]
    · rw [trail_of_not_below hi, Nat.add_zero, if_neg hi]
      rfl
  | succ n ih =>
    by_cases hi : Below limit index
    · obtain ⟨x, hx⟩ := hs index hi
      have hnext := ih (index + 1)
      rw [show index + 1 + n = index + (n + 1) by omega] at hnext
      rw [trail_of_below hi hx, ← hnext, Trail.elements, WSeq.map_cons, output_cons_succ]
      rfl
    · have hn : ¬ Below limit (index + (n + 1)) := fun h => hi (h.of_le (by omega))
      rw [trail_of_not_below hi, if_neg hn]
      rfl

end Source

variable {ι : Type} [Basis ι]

namespace Sequence
variable {k : Kind ι}

theorem elements_empty (w : World ι) : elements w (.empty : Sequence k) = .nil := rfl

theorem elements_one (w : World ι) (head : El k) (tail : Sequence k) :
    elements w (.one head tail) = .cons (El.value w k head) (elements w tail) :=
  WSeq.map_cons ..

theorem elements_composite (w : World ι) (parts : Segments (Sequence k)) :
    elements w (.composite parts) = inOrder (parts.contents.map (elements w)) := by
  have htrail : trail w (.composite parts) = .chained (parts.contents.map (trail w)) :=
    Node.trail_composite ..
  rw [elements, htrail, Trail.elements_chained_eq, List.map_map]
  rfl

theorem elements_generated {w : World ι} {index : Nat} {limit : Option Nat}
    {source : Source (El k)} (h : Formed w (.generated index limit source)) (n : ℕ) :
    output (elements w (.generated index limit source)) n =
      if Source.Below limit (index + n) then
        (source.at? (index + n)).map fun x => some (El.value w k x)
      else none := by
  cases h with
  | generated _ hs =>
    exact Source.output_trail _ (fun i hi => (hs i hi).imp fun _ hx => hx.1) index n

theorem elements_lazy {st : Store ι} {w : World ι} (hst : st.Means w) {id : Nat} {p : Plan k}
    {m : Memo (Sequence k)} (h : st.find? k id = some (p, m)) :
    ∃ S, p.Means w S ∧ elements w (.lazy id : Sequence k) = S.trail.elements := by
  obtain ⟨-, d, hd, hp⟩ := hst.plan (Store.find?_eq_some.1 h)
  exact ⟨_, hp, congrArg Trail.elements (World.trail_eq hd)⟩

theorem elements_kept {st : Store ι} {w : World ι} (hst : st.Means w) {id : Nat} {v : Sequence k}
    (h : st.peek? k id = some v) : elements w (.lazy id : Sequence k) ~ʷ elements w v := by
  obtain ⟨-, j, hj⟩ := hst.kept h
  have htrail : trail w (.lazy id : Sequence k) = think^[j + 1] (trail w v) := hj
  rw [elements, htrail, Trail.elements_ticks]
  exact ticks_equiv _ _

theorem elements_ahead (w : World ι) (current : Sequence k) (opened : List (Segments (Sequence k))) :
    (ahead w current opened).elements =
      (elements w current).append (inOrder ((Node.pendingParts opened).map (elements w))) := by
  have h : ahead w current opened =
      .chained (trail w current :: (Node.pendingParts opened).map (trail w)) := rfl
  rw [h, Trail.elements_chained, Trail.elements_chained_eq, List.map_map]
  rfl

theorem elements_concat (w : World ι) (a : Sequence k) {b : Sequence k} (hb : Formed w b) :
    elements w (Node.concat a b) = (elements w a).append (elements w b) :=
  Node.elements_concat _ _ a hb

end Sequence

section Loop
variable {k : Kind ι} {s c c' : Sequence k} {o o' : List (Segments (Sequence k))}
  {st st₁ st₂ : Store ι} {fuel n : ℕ} {w : World ι}

/-- The states that the loop of `next` comes to, with the fuel that is left. -/
inductive Iterates (s : Sequence k) (st : Store ι) (fuel : ℕ) :
    ℕ → Sequence k → List (Segments (Sequence k)) → Store ι → Prop
  | start : Iterates s st fuel fuel s [] st
  | turn {n : ℕ} {c c' : Sequence k} {o o' : List (Segments (Sequence k))} {st₁ st₂ : Store ι}
      (h : Iterates s st fuel (n + 1) c o st₁)
      (ht : Sequence.turn (Run.force (Plan.unfold fun _ s => Sequence.visit n s []) k) c o st₁ =
        .ok (.onward c' o', st₂)) : Iterates s st fuel n c' o' st₂

theorem Iterates.next_eq (h : Iterates s st fuel n c o st₁) :
    Sequence.next fuel s st = Sequence.visit n c o st₁ := by
  induction h with
  | start => rfl
  | @turn n c c' o o' st₁ st₂ _ ht ih =>
    have hstep : Sequence.visit (n + 1) c o st₁ = Sequence.visit n c' o' st₂ := by
      change Run.bind _ _ st₁ = _
      rw [Run.bind, ht]
    rw [ih, hstep]

/-- Every turn keeps what is still to come: only ticks are used up. -/
theorem Iterates.ahead_eq (h : Iterates s st fuel n c o st₁) (hst : st.Means w)
    (hs : Formed w s) :
    ∃ w₁, st.Leads w st₁ w₁ ∧ Formed w₁ c ∧ Queued w₁ o ∧
      ∃ j, trail w s = think^[j] (Sequence.ahead w₁ c o) := by
  induction h with
  | start => exact ⟨w, hst.leads, hs, Sequence.queued_nil w, 0, rfl⟩
  | @turn n c c' o o' st₁ st₂ _ ht ih =>
    obtain ⟨w₁, hl, hc, ho, j, hj⟩ := ih
    have hn : Extraction.Sound (ι := ι) fun _ s => Sequence.visit n s [] := next_sound n
    obtain ⟨w₂, hl₂, ⟨i, hi⟩, hc', ho'⟩ := turn_sound (force_sound hn hl.means) hl.means hc ho ht
    refine ⟨w₂, hl.trans hl₂, hc', ho', j + i, ?_⟩
    rw [hj, hi, ← Function.iterate_add_apply]

structure Finds (w : World ι) (d : WSeq (Value k)) (answer : Option (El k × Sequence k)) :
    Prop where
  ends : answer = none ↔ d ~ʷ .nil
  first : ∀ x t, answer = some (x, t) → d ~ʷ .cons (El.value w k x) (elements w t)
  formed : ∀ x t, answer = some (x, t) → El.Formed w k x ∧ Formed w t

theorem finds_of_tells {d : Trail (Value k)} {answer : Option (El k × Sequence k)}
    (h : Tells w d answer) : Finds w d.elements answer := by
  cases answer with
  | none =>
    obtain ⟨n, rfl⟩ := Sequence.tells_none.1 h
    rw [Trail.elements_ticks]
    exact ⟨⟨fun _ => ticks_equiv n _, fun _ => rfl⟩, nofun, nofun⟩
  | some p =>
    obtain ⟨x, t⟩ := p
    obtain ⟨⟨n, rfl⟩, hx, ht⟩ := Sequence.tells_some.1 h
    have hcons : Trail.elements (.cons (El.value w k x, Node.form t) (trail w t)) =
        .cons (El.value w k x) (elements w t) := WSeq.map_cons ..
    rw [Trail.elements_ticks, hcons]
    have hd := ticks_equiv n (WSeq.cons (El.value w k x) (elements w t))
    refine ⟨⟨nofun, fun hnil => ?_⟩, fun y u hp => ?_, fun y u hp => ?_⟩
    · exact absurd (hd.symm.trans hnil) (not_cons_equiv_nil _ _)
    · obtain ⟨rfl, rfl⟩ := Prod.mk.inj (Option.some.inj hp)
      exact hd
    · obtain ⟨rfl, rfl⟩ := Prod.mk.inj (Option.some.inj hp)
      exact ⟨hx, ht⟩

end Loop

section Alike
variable {k : Kind ι} {st : Store ι} {w : World ι} {env : Env ι} {a b : Sequence k}

/-- No observer tells the two sequences from each other. -/
structure Alike (st : Store ι) (env : Env ι) (a b : Sequence k) : Prop where
  answers : ∀ {α : Type} (o : Observation k α) (answer : α),
    (∃ fuel st', o.run env fuel a st = .ok (answer, st')) ↔
      ∃ fuel st', o.run env fuel b st = .ok (answer, st')
  endless : st.isUnbounded a = st.isUnbounded b

theorem answers_of_shown {vs : Values ι} (hst : st.Means w) (hquiet : ∀ id, ¬ st.Running id)
    (henv : Reading.env w env vs) (ha : Formed w a) (hb : Formed w b)
    (h : Sequence.shown w a = Sequence.shown w b) {α : Type} (o : Observation k α) {answer : α}
    (ho : ∃ fuel st', o.run env fuel a st = .ok (answer, st')) :
    ∃ fuel st', o.run env fuel b st = .ok (answer, st') := by
  obtain ⟨fuel, st', ho⟩ := ho
  obtain ⟨w', x, -, hx, rfl⟩ := (o.adequate hst henv ⟨ha, rfl⟩).sound ho
  obtain ⟨y, st₂, w₂, hgives, -, rfl⟩ := (o.adequate hst henv ⟨hb, h.symm⟩).gives hquiet hx
  obtain ⟨N, hN⟩ := hgives.run
  exact ⟨N, st₂, hN⟩

theorem alike_of_shown {vs : Values ι} (hst : st.Means w) (hquiet : ∀ id, ¬ st.Running id)
    (henv : Reading.env w env vs) (ha : Formed w a) (hb : Formed w b)
    (h : Sequence.shown w a = Sequence.shown w b) (he : st.Endless a ↔ st.Endless b) :
    Alike st env a b where
  answers o _ := ⟨answers_of_shown hst hquiet henv ha hb h o,
    answers_of_shown hst hquiet henv hb ha h.symm o⟩
  endless := Bool.eq_iff_iff.2 (by rw [Store.isUnbounded_iff, Store.isUnbounded_iff, he])

theorem alike_concat_assoc {vs : Values ι} {c : Sequence k} (hst : st.Means w)
    (hquiet : ∀ id, ¬ st.Running id) (henv : Reading.env w env vs) (ha : Formed w a)
    (hb : Formed w b) (hc : Formed w c) :
    Alike st env (Node.concat (Node.concat a b) c) (Node.concat a (Node.concat b c)) := by
  have hab : Formed w (Node.concat a b) := Node.Formed.concat ha hb
  have hbc : Formed w (Node.concat b c) := Node.Formed.concat hb hc
  refine alike_of_shown hst hquiet henv (Node.Formed.concat hab hc) (Node.Formed.concat ha hbc) ?_ ?_
  · rw [Sequence.shown_concat w _ hc, Sequence.shown_concat w a hb, Sequence.shown_concat w a hbc,
      Sequence.shown_concat w b hc, Shown.concat_assoc]
  · simp only [Store.endless_concat, or_assoc]

end Alike

/-- The elements of the sequences of one kind are those that their forms ask for. -/
structure Denotes (st : Store ι) (w : World ι) (k : Kind ι) : Prop where
  empty : elements w (.empty : Sequence k) = .nil
  one : ∀ (head : El k) (tail : Sequence k),
    elements w (.one head tail) = .cons (El.value w k head) (elements w tail)
  composite : ∀ parts : Segments (Sequence k),
    elements w (.composite parts) = inOrder (parts.contents.map (elements w))
  generated : ∀ (index : Nat) (limit : Option Nat) (source : Source (El k)),
    Formed w (.generated index limit source) → ∀ n,
      output (elements w (.generated index limit source)) n =
        if Source.Below limit (index + n) then
          (source.at? (index + n)).map fun x => some (El.value w k x)
        else none
  lazy : ∀ (id : Nat) (p : Plan k) (m : Memo (Sequence k)), st.find? k id = some (p, m) →
    ∃ S, p.Means w S ∧ elements w (.lazy id : Sequence k) = S.trail.elements
  kept : ∀ (id : Nat) (v : Sequence k), st.peek? k id = some v →
    elements w (.lazy id : Sequence k) ~ʷ elements w v

structure Correct (st : Store ι) (env : Env ι) (w : World ι) (k : Kind ι) : Prop where
  denotes : Denotes st w k
  next : ∀ {s : Sequence k} {fuel : ℕ} {answer : Option (El k × Sequence k)} {st' : Store ι},
    Formed w s → Sequence.next fuel s st = .ok (answer, st') →
      ∃ w', st.Leads w st' w' ∧ Finds w' (elements w s) answer
  loop : ∀ {s c : Sequence k} {o : List (Segments (Sequence k))} {fuel n : ℕ} {st₁ : Store ι},
    Formed w s → Iterates s st fuel n c o st₁ →
      Sequence.next fuel s st = Sequence.visit n c o st₁ ∧
      ∃ w₁, st.Leads w st₁ w₁ ∧ elements w s ~ʷ
        (elements w₁ c).append (inOrder ((Node.pendingParts o).map (elements w₁)))
  concat : ∀ {a b : Sequence k}, Formed w a → Formed w b →
    Formed w (Node.concat a b) ∧
      elements w (Node.concat a b) = (elements w a).append (elements w b)
  assoc : ∀ {a b c : Sequence k}, Formed w a → Formed w b → Formed w c →
    Alike st env (Node.concat (Node.concat a b) c) (Node.concat a (Node.concat b c))
  identity : ∀ a : Sequence k, Node.concat .empty a = a ∧ Node.concat a .empty = a

theorem denotes_of_means {st : Store ι} {w : World ι} (hst : st.Means w) (k : Kind ι) :
    Denotes st w k where
  empty := Sequence.elements_empty w
  one := Sequence.elements_one w
  composite := Sequence.elements_composite w
  generated _ _ _ h := Sequence.elements_generated h
  lazy _ _ _ h := Sequence.elements_lazy hst h
  kept _ _ h := Sequence.elements_kept hst h

theorem correct_of_means {st : Store ι} {w : World ι} {env : Env ι} {vs : Values ι}
    (hst : st.Means w) (hquiet : ∀ id, ¬ st.Running id) (henv : Reading.env w env vs)
    (k : Kind ι) : Correct st env w k where
  denotes := denotes_of_means hst k
  next hs h := by
    obtain ⟨w', hl, ht⟩ := next_sound _ h hst hs
    exact ⟨w', hl, finds_of_tells ht⟩
  loop hs h := by
    obtain ⟨w₁, hl, -, -, j, hj⟩ := h.ahead_eq hst hs
    refine ⟨h.next_eq, w₁, hl, ?_⟩
    rw [elements, hj, Trail.elements_ticks, Sequence.elements_ahead]
    exact ticks_equiv j _
  concat ha hb := ⟨Node.Formed.concat ha hb, Sequence.elements_concat w _ hb⟩
  assoc ha hb hc := alike_concat_assoc hst hquiet henv ha hb hc
  identity a := ⟨Node.empty_concat a, Node.concat_empty a⟩

theorem formed_of_reads {w : World ι} {env : Env ι} {vs : Values ι} (h : Reading.env w env vs) :
    ∀ r ∈ env, El.Formed w r.1 r.2 := by
  induction h with
  | nil => simp
  | cons hr _ ih => exact List.forall_mem_cons.2 ⟨hr.1, ih⟩

/-- After every run of a program its registers are formed, and whatever is formed there is observed and
concatenated correctly. -/
theorem run_correct {program : List (Step ι)} {fuel : ℕ} {env : Env ι} {st : Store ι}
    (h : Program.run fuel program [] Store.empty = .ok (env, st)) :
    ∃ w : World ι, st.Means w ∧ (∀ r ∈ env, El.Formed w r.1 r.2) ∧ ∀ k, Correct st env w k := by
  obtain ⟨vs, w, -, hkept⟩ := Program.run_keeps program kept_empty h
  exact ⟨w, hkept.means, formed_of_reads hkept.reads,
    correct_of_means hkept.means hkept.quiet hkept.reads⟩

def chaining : List (Step Atom) :=
  have even : Uniform (.noted (El.reading .nat) (.same Bool)) :=
    .fn El.plain_nat (Reading.plain_same Bool) (.silent fun n : Nat => n % 2 == 0)
  [.make (k := .nat) (.generate (some 5)) [],
   .make (k := .nat) (.filter 0 even) [0],
   .make (k := .nat) (.flatMap (a := .nat) 0
     (Make.each trivial fun n : Nat => .fromVec (.plain El.plain_nats [n, n / 2])) fun _ => none) [1],
   .make (k := .nat) (.concat 0 1) [2, 0],
   .next .nat 3]

theorem chaining_correct :
    ∃ env st, Program.run 20 chaining [] Store.empty = .ok (env, st) ∧
      ∃ w : World Atom, st.Means w ∧ (∀ r ∈ env, El.Formed w r.1 r.2) ∧ ∀ k, Correct st env w k := by
  have hok : (Program.run 20 chaining [] Store.empty).isOk = true := by decide +kernel
  cases h : Program.run 20 chaining [] Store.empty with
  | error halt => simp [h, Except.isOk, Except.toBool] at hok
  | ok r => exact ⟨r.1, r.2, rfl, run_correct h⟩

end MemoSequence
