import MemoSequence.Proofs.Demand.Feeds
import MemoSequence.Proofs.Demand.Fuel
import MemoSequence.Proofs.Guard
set_option autoImplicit false

namespace MemoSequence
open Sequence (Formed)

namespace Node
variable {α : Type}

section Counting

mutual

def composites : Node α → ℕ
  | .empty => 0
  | .one _ tail => composites tail
  | .composite ⟨⟨front, _⟩, ⟨back, _⟩⟩ => 1 + (compositesOf front + compositesOf back)
  | .generated _ _ _ => 0
  | .lazy _ => 0

def compositesOf : List (Node α) → ℕ
  | [] => 0
  | s :: rest => composites s + compositesOf rest

end

def isComposite : Node α → Bool
  | .composite _ => true
  | _ => false

theorem isEmpty_iff (s : Node α) : s.isEmpty = true ↔ s = .empty := by
  cases s <;> simp [isEmpty]

theorem compositesOf_eq_sum (parts : List (Node α)) : compositesOf parts = (parts.map composites).sum := by
  induction parts with
  | nil => rfl
  | cons s rest ih => rw [compositesOf, ih, List.map_cons, List.sum_cons]

theorem composites_composite (parts : Segments (Node α)) :
    composites (.composite parts) = 1 + (parts.contents.map composites).sum := by
  obtain ⟨⟨front, _⟩, ⟨back, _⟩⟩ := parts
  rw [composites, compositesOf_eq_sum, compositesOf_eq_sum, Segments.contents, List.map_append,
    List.sum_append, List.map_reverse, List.sum_reverse]

theorem composites_ofSegments (parts : Segments (Node α)) :
    composites (ofSegments parts) =
      if parts.contents = [] then 0 else 1 + (parts.contents.map composites).sum := by
  unfold ofSegments
  simp only [Segments.isEmpty_iff]
  split_ifs
  · rfl
  · exact composites_composite parts

theorem composites_concat (a b : Node α) :
    composites (a.concat b) = composites a + composites b +
      if a.isEmpty || b.isEmpty || a.isComposite || b.isComposite then 0 else 1 := by
  unfold concat
  split
  · simp [composites, isEmpty]
  · simp [composites, isEmpty]
  · next front _ =>
    simp only [composites_ofSegments, composites_composite, Segments.contents_pushBack, isComposite]
    simp [Nat.add_assoc]
  · next back _ _ =>
    simp only [composites_ofSegments, composites_composite, Segments.contents_pushFront, isComposite]
    simp
    omega
  · next ha hfront hb hback =>
    have hsimple : ∀ s : Node α, s ≠ .empty → (∀ parts, s ≠ .composite parts) →
        s.isEmpty = false ∧ s.isComposite = false := by
      intro s he hc
      cases s <;> simp_all [isEmpty, isComposite]
    obtain ⟨ea, ca⟩ := hsimple a ha hfront
    obtain ⟨eb, cb⟩ := hsimple b hb hback
    simp [composites_ofSegments, ea, eb, ca, cb]
    omega

theorem composites_following (index : ℕ) (limit : Option ℕ) (source : Source α) :
    composites (following index limit source) = 0 := by
  unfold following
  split
  · split <;> rfl
  · rfl

end Counting

section Queues
variable {opened opened' : List (Segments (Node α))} {part : Node α}

theorem length_of_popPending (h : popPending opened = some (part, opened')) :
    opened'.length ≤ opened.length := by
  induction opened with
  | nil => simp [popPending] at h
  | cons parts outer ih =>
    cases hp : parts.popFront? with
    | some p =>
      simp only [popPending, hp, Option.some.injEq, Prod.mk.injEq] at h
      rw [← h.2, List.length_cons, List.length_cons]
    | none =>
      have ho : popPending outer = some (part, opened') := by simpa [popPending, hp] using h
      exact (ih ho).trans (Nat.le_succ _)

theorem composites_concat_ofSegments (tail : Node α) (parts : Segments (Node α)) :
    composites (tail.concat (ofSegments parts)) = composites tail + composites (ofSegments parts) := by
  have hwrapped : (ofSegments parts).isEmpty = true ∨ (ofSegments parts).isComposite = true := by
    unfold ofSegments
    split
    · exact .inl rfl
    · exact .inr rfl
  rw [composites_concat, if_pos (by simp only [Bool.or_eq_true]; tauto), Nat.add_zero]

/-- Each queue that still holds something is wrapped up once. -/
theorem composites_reattach_le (tail : Node α) (opened : List (Segments (Node α))) :
    composites (reattach tail opened) ≤
      composites tail + ((pendingParts opened).map composites).sum + opened.length := by
  induction opened generalizing tail with
  | nil => exact Nat.le_add_right _ _
  | cons parts outer ih =>
    have hrest := ih (tail.concat (ofSegments parts))
    have hwrapped : composites (ofSegments parts) ≤ 1 + (parts.contents.map composites).sum := by
      rw [composites_ofSegments]
      split_ifs <;> omega
    rw [composites_concat_ofSegments] at hrest
    have hsum : ((pendingParts (parts :: outer)).map composites).sum =
        (parts.contents.map composites).sum + ((pendingParts outer).map composites).sum := by
      simp [pendingParts]
    rw [hsum, List.length_cons]
    exact hrest.trans (by omega)

end Queues

section Immediate
variable {cell : Nat → Prop} {item : α → Prop} {s : Node α}

/-- Nodes that could have been made, and in which nothing is deferred. -/
def Immediate (s : Node α) : Prop := Formed (fun _ => False) (fun _ => True) s

theorem Formed.immediate (h : Formed cell item s) (hs : s.Closed) : s.Immediate := by
  induction h with
  | empty => exact .empty
  | one _ _ ih => exact .one trivial (ih fun id hid => hs id (by simp [hid]))
  | composite hc he _ ih =>
    refine .composite hc he fun t ht => ih t ht fun id hid => hs id ?_
    rw [parts_composite]
    exact List.mem_flatMap.2 ⟨t, ht, hid⟩
  | generated hb hsource =>
    refine .generated hb fun i hi => ?_
    obtain ⟨x, hx, -⟩ := hsource i hi
    exact ⟨x, hx, trivial⟩
  | @lazy id _ => exact absurd (by simp) (hs id)

theorem Immediate.closed (h : s.Immediate) : s.Closed := by
  induction h with
  | empty => simp [Closed]
  | one _ _ ih => simpa [Closed] using ih
  | composite _ _ _ ih =>
    intro id hid
    rw [parts_composite] at hid
    obtain ⟨t, ht, hid⟩ := List.mem_flatMap.1 hid
    exact ih t ht id hid
  | generated _ _ => simp [Closed]
  | lazy h => exact h.elim

structure Facile (current : Node α) (opened : List (Segments (Node α))) : Prop where
  node : current.Immediate
  parts : ∀ s ∈ pendingParts opened, s ≠ .empty ∧ s.Immediate
  bare : current = .empty → pendingParts opened = []

theorem Immediate.facile (h : s.Immediate) : Facile s [] where
  node := h
  parts := by simp [pendingParts]
  bare _ := rfl

def unopened (current : Node α) (opened : List (Segments (Node α))) : ℕ :=
  composites current + ((pendingParts opened).map composites).sum

end Immediate

end Node

open Node (composites unopened Immediate Facile pendingParts)

variable {ι : Type} [Basis ι] {k : Kind ι}

namespace Sequence
variable {current : Sequence k} {opened : List (Segments (Sequence k))}

/-- There is an element unless the sequence is empty, and what is left has no more than so many composites. -/
structure Thrifty (current : Sequence k) (bound : ℕ) (answer : Option (El k × Sequence k)) : Prop where
  ends : answer = none → current = .empty
  rest : ∀ x t, answer = some (x, t) → Immediate t ∧ composites t ≤ bound

def Advances (current : Sequence k) (opened : List (Segments (Sequence k))) : Turn k → Prop
  | .found answer => Thrifty current (unopened current opened + opened.length) answer
  | .onward c o => Facile c o ∧ c ≠ .empty ∧ unopened c o + 1 = unopened current opened ∧
      o.length ≤ opened.length + 1

theorem Thrifty.reattach {x : El k} {tail : Sequence k} (ht : Immediate tail) (h : Facile current opened)
    (hc : composites tail ≤ composites current) :
    Thrifty current (unopened current opened + opened.length) (some (x, Node.reattach tail opened)) where
  ends h := by cases h
  rest y t hy := by
    obtain ⟨rfl, rfl⟩ := Prod.mk.inj (Option.some.inj hy)
    refine ⟨Node.Formed.reattach ht h.parts, (Node.composites_reattach_le tail opened).trans ?_⟩
    unfold unopened
    omega

theorem turn_opens {parts : Segments (Sequence k)} (h : Facile (.composite parts) opened) :
    Advances (.composite parts) opened
      (.ofPending (Node.popPending (parts :: opened.dropWhile Segments.isEmpty))) := by
  have hpending := pendingParts_composite parts opened
  cases hpop : Node.popPending (parts :: opened.dropWhile Segments.isEmpty) with
  | none =>
    rw [Node.pendingParts_of_popPending_none hpop] at hpending
    cases h.node with
    | composite hne _ _ => exact absurd (List.append_eq_nil_iff.1 hpending.symm).1 hne
  | some p =>
    obtain ⟨part, o⟩ := p
    rw [Node.pendingParts_of_popPending hpop] at hpending
    have hparts : ∀ s ∈ part :: pendingParts o, s ≠ .empty ∧ Immediate s := by
      rw [hpending]
      exact List.forall_mem_append.2 ⟨Node.Formed.queued h.node, h.parts⟩
    obtain ⟨⟨hne, hpart⟩, hrest⟩ := List.forall_mem_cons.1 hparts
    refine ⟨⟨hpart, hrest, fun he => absurd he hne⟩, hne, ?_, ?_⟩
    · have hsum := congrArg (fun parts => (parts.map composites).sum) hpending
      simp only [List.map_cons, List.map_append, List.sum_cons, List.sum_append] at hsum
      unfold unopened
      rw [Node.composites_composite]
      omega
    · have hlength := Node.length_of_popPending hpop
      have hdropped := (List.dropWhile_sublist Segments.isEmpty (l := opened)).length_le
      rw [List.length_cons] at hlength
      omega

theorem turn_immediate (h : Facile current opened) (st : Store ι) :
    ∃ turn st', (∀ force, Sequence.turn force current opened st = .ok (turn, st')) ∧
      Advances current opened turn := by
  cases current with
  | empty =>
    refine ⟨.ofPending (Node.popPending opened), st, fun _ => rfl, ?_⟩
    cases hpop : Node.popPending opened with
    | none => exact ⟨fun _ => rfl, nofun⟩
    | some p =>
      have hpending := Node.pendingParts_of_popPending hpop
      rw [h.bare rfl] at hpending
      cases hpending
  | one head tail =>
    cases h.node with
    | one _ ht => exact ⟨_, st, fun _ => rfl, .reattach ht h (by rw [composites])⟩
  | composite parts => exact ⟨_, st, fun _ => rfl, turn_opens h⟩
  | generated index limit source =>
    cases h.node with
    | generated hb hs =>
      obtain ⟨x, hx, -⟩ := hs index hb
      refine ⟨_, _, fun force => turn_generated hx force opened st, ?_⟩
      exact .reattach (.following h.node) h (by rw [Node.composites_following]; exact Nat.zero_le _)
  | lazy id =>
    cases h.node with
    | lazy hid => exact hid.elim

theorem visit_found {fuel : ℕ} {st st' : Store ι} {answer : Option (El k × Sequence k)}
    (h : ∀ force, Sequence.turn force current opened st = .ok (.found answer, st')) :
    visit (fuel + 1) current opened st = .ok (answer, st') := by
  change Run.bind _ _ st = _
  rw [Run.bind, h]
  rfl

theorem visit_onward {fuel : ℕ} {st st' : Store ι} {c : Sequence k} {o : List (Segments (Sequence k))}
    (h : ∀ force, Sequence.turn force current opened st = .ok (.onward c o, st')) :
    visit (fuel + 1) current opened st = visit fuel c o st' := by
  change Run.bind _ _ st = _
  rw [Run.bind, h]

/-- The loop returns within one turn more than there are composites to be opened. -/
theorem visit_immediate (h : Facile current opened) (st : Store ι) :
    ∃ answer st', (∀ fuel, unopened current opened < fuel →
        visit fuel current opened st = .ok (answer, st')) ∧
      Thrifty current (unopened current opened + opened.length) answer := by
  induction hn : unopened current opened using Nat.strong_induction_on generalizing current opened st with
  | _ n ih =>
    obtain ⟨turn, st', hturn, hturned⟩ := turn_immediate h st
    cases turn with
    | found answer =>
      refine ⟨answer, st', fun fuel hfuel => ?_, hn ▸ hturned⟩
      obtain ⟨fuel, rfl⟩ := Nat.exists_eq_add_of_lt hfuel
      exact visit_found hturn
    | onward c o =>
      obtain ⟨hc, hne, hopened, hlength⟩ := hturned
      obtain ⟨answer, st₂, hvisit, hends, hrest⟩ := ih (unopened c o) (by omega) hc st' rfl
      refine ⟨answer, st₂, fun fuel hfuel => ?_, fun he => absurd (hends he) hne, fun x t hx => ?_⟩
      · obtain ⟨fuel, rfl⟩ := Nat.exists_eq_add_of_lt hfuel
        rw [visit_onward hturn]
        exact hvisit _ (by omega)
      · obtain ⟨ht, hle⟩ := hrest x t hx
        exact ⟨ht, hle.trans (by omega)⟩

section Next
variable {s t : Sequence k} {st st' st₁ : Store ι} {fuel : ℕ}

theorem next_immediate (hs : Immediate s) (st : Store ι) :
    ∃ answer st', (∀ fuel, composites s < fuel → Sequence.next fuel s st = .ok (answer, st')) ∧
      Thrifty s (composites s) answer := visit_immediate hs.facile st

theorem next_rest (hs : Immediate s) {x : El k} (h : Sequence.next fuel s st = .ok (some (x, t), st')) :
    Immediate t ∧ composites t ≤ composites s := by
  obtain ⟨answer, st₁, hnext, -, hrest⟩ := next_immediate hs st
  have hgives : Gives (fun fuel => Sequence.next fuel s) st answer st₁ := ⟨_, hnext⟩
  obtain ⟨rfl, -⟩ := hgives.of_returned (fun hle => visit_extends hle s []) h
  exact hrest x t rfl

theorem chain_rest (h : Chain s st t st₁) (hs : Immediate s) :
    Immediate t ∧ composites t ≤ composites s := by
  induction h with
  | start => exact ⟨hs, le_rfl⟩
  | next h _ ih =>
    obtain ⟨ht, hle⟩ := next_rest hs h
    exact ⟨(ih ht).1, (ih ht).2.trans hle⟩

theorem iterates_immediate {n : ℕ} {c : Sequence k} {o : List (Segments (Sequence k))}
    (h : Iterates s st fuel n c o st₁) (hs : Immediate s) :
    Facile c o ∧ fuel + unopened c o = n + composites s := by
  induction h with
  | start => exact ⟨hs.facile, rfl⟩
  | @turn n c c' o o' st₁ st₂ _ ht ih =>
    obtain ⟨hc, hcount⟩ := ih
    obtain ⟨turn, st', hturn, hturned⟩ := turn_immediate hc st₁
    obtain ⟨rfl, -⟩ := Prod.mk.inj (Except.ok.inj ((hturn _).symm.trans ht))
    obtain ⟨hc', -, hopened, -⟩ := hturned
    exact ⟨hc', by omega⟩

end Next

end Sequence

namespace Node
variable {α : Type} {operand : Node α → Prop} {a b s : Node α}

/-- A chain of concatenations that has grown at its ends, one operand after the other. -/
inductive Grown (operand : Node α → Prop) : Node α → Prop
  | start {s : Node α} (h : operand s) : Grown operand s
  | front {a s : Node α} (ha : operand a) (h : Grown operand s) : Grown operand (a.concat s)
  | back {s b : Node α} (h : Grown operand s) (hb : operand b) : Grown operand (s.concat b)

theorem Grown.immediate (h : Grown operand s) (ho : ∀ a, operand a → a.Immediate) : s.Immediate := by
  induction h with
  | start h => exact ho _ h
  | front ha _ ih => exact Formed.concat (ho _ ha) ih
  | back _ hb ih => exact Formed.concat ih (ho _ hb)

def Single (s : Node α) : Prop := composites s = 0 ∨ s.isComposite = true ∧ composites s = 1

theorem composites_pos (h : s.isComposite = true) : 0 < composites s := by
  cases s with
  | composite parts => rw [composites_composite]; omega
  | empty | one | generated | lazy => cases h

theorem single_concat (ha : Single a) (hb : Single b) (h : composites a = 0 ∨ composites b = 0) :
    Single (a.concat b) := by
  by_cases ea : a = .empty
  · rwa [ea, empty_concat]
  by_cases eb : b = .empty
  · rwa [eb, concat_empty]
  refine .inr ⟨?_, ?_⟩
  · obtain ⟨parts, hp, -⟩ := concat_eq_composite ea eb
    rw [hp]
    rfl
  · have hfalse : ∀ {s : Node α}, s ≠ .empty → s.isEmpty = false := fun hs => by
      rwa [← Bool.not_eq_true, isEmpty_iff]
    have hpos := composites_pos (s := a)
    have hpos' := composites_pos (s := b)
    rw [composites_concat, hfalse ea, hfalse eb]
    cases hca : a.isComposite <;> cases hcb : b.isComposite <;> simp_all [Single] <;> omega

theorem Grown.single (h : Grown operand s) (ho : ∀ a, operand a → composites a = 0) : Single s := by
  induction h with
  | start h => exact .inl (ho _ h)
  | front ha _ ih => exact single_concat (.inl (ho _ ha)) ih (.inl (ho _ ha))
  | back _ hb ih => exact single_concat ih (.inl (ho _ hb)) (.inr (ho _ hb))

end Node

/-- How the composites of sequences without deferred parts are kept account of. -/
structure Bookkeeping (w : World ι) (k : Kind ι) : Prop where
  concat : ∀ a b : Sequence k, composites (Node.concat a b) = composites a + composites b +
    if Node.isEmpty a || Node.isEmpty b || Node.isComposite a || Node.isComposite b then 0 else 1
  rest : ∀ {s t : Sequence k} {x : El k} {fuel : ℕ} {st st' : Store ι}, Formed w s → Node.Closed s →
    Sequence.next fuel s st = .ok (some (x, t), st') → Node.Closed t ∧ composites t ≤ composites s
  turns : ∀ {s : Sequence k} (st : Store ι), Formed w s → Node.Closed s →
    (∃ answer st', ∀ fuel, composites s + 1 ≤ fuel → Sequence.next fuel s st = .ok (answer, st')) ∧
    ∀ {fuel n : ℕ} {c : Sequence k} {o : List (Segments (Sequence k))} {st₁ : Store ι},
      Iterates s st fuel n c o st₁ → fuel ≤ n + composites s
  chain : ∀ (s t : Sequence k) (st st₁ : Store ι),
    Node.Grown (fun a => Formed w a ∧ Node.Closed a ∧ composites a = 0) s → Sequence.Chain s st t st₁ →
    composites t ≤ 1 ∧ ∃ answer st₂, ∀ fuel, 2 ≤ fuel → Sequence.next fuel t st₁ = .ok (answer, st₂)

theorem bookkeeping (w : World ι) (k : Kind ι) : Bookkeeping w k where
  concat := Node.composites_concat
  rest hs hclosed h := by
    obtain ⟨ht, hle⟩ := Sequence.next_rest (hs.immediate hclosed) h
    exact ⟨ht.closed, hle⟩
  turns st hs hclosed := by
    have himmediate := hs.immediate hclosed
    obtain ⟨answer, st', hnext, -⟩ := Sequence.next_immediate himmediate st
    refine ⟨⟨answer, st', hnext⟩, fun h => ?_⟩
    obtain ⟨-, hcount⟩ := Sequence.iterates_immediate h himmediate
    omega
  chain s t st st₁ hs h := by
    have himmediate := hs.immediate fun a ha => ha.1.immediate ha.2.1
    obtain ⟨ht, hle⟩ := Sequence.chain_rest h himmediate
    have hone : composites s ≤ 1 := by
      rcases hs.single fun a ha => ha.2.2 with h | h <;> omega
    obtain ⟨answer, st₂, hnext, -⟩ := Sequence.next_immediate ht st₁
    exact ⟨hle.trans hone, answer, st₂, fun fuel hfuel => hnext fuel (by omega)⟩

/-- After every run of a program the composites of sequences without deferred parts are kept account of. -/
theorem composites_never_grow {program : List (Step ι)} {fuel : ℕ} {env : Env ι} {st : Store ι}
    (h : Program.run fuel program [] Store.empty = .ok (env, st)) :
    ∃ w : World ι, st.Means w ∧ (∀ r ∈ env, El.Formed w r.1 r.2) ∧ ∀ k, Bookkeeping w k := by
  obtain ⟨vs, w, -, hkept⟩ := Program.run_keeps program kept_empty h
  exact ⟨w, hkept.means, formed_of_reads hkept.reads, bookkeeping w⟩

def lengthening : List (Step Atom) :=
  [.make (k := .nat) (.fromVec (.plain El.plain_nats [7])) [],
   .make (k := .nat) (.generate (some 2)) [],
   .make (k := .nat) (.concat 0 1) [0, 1],
   .make (k := .nat) (.concat 0 1) [2, 1],
   .make (k := .nat) (.concat 0 1) [1, 3],
   .next .nat 4,
   .next .nat 6,
   .next .nat 8]

theorem lengthening_never_grows :
    ∃ env st, Program.run 10 lengthening [] Store.empty = .ok (env, st) ∧
      composites (env.seq .nat 4) = 1 ∧ composites (env.seq .nat 10) = 1 ∧
      ∃ w : World Atom, st.Means w ∧ (∀ r ∈ env, El.Formed w r.1 r.2) ∧ ∀ k, Bookkeeping w k := by
  have hrun := (rfl : Program.run 10 lengthening [] Store.empty = .ok (_, _))
  exact ⟨_, _, hrun, rfl, rfl, composites_never_grow hrun⟩

end MemoSequence
