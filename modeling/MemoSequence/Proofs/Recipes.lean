import MemoSequence.Proofs.Observing
set_option autoImplicit false

/-!
# Runs of programs and recipes of registers

A run of a program goes on in one store, which its steps share: what one step has forced, the next ones
find forced. The recipe of a register is the tree of the uses of constructors, combinators and `next`
that its element came from; it can be evaluated alone, in any store.

The invariant of a run ties the two together: register by register, the element and the recipe stand
for the same value.
-/
namespace MemoSequence
open Stream'.WSeq (think)
open Sequence (Formed trail)

variable {ι : Type} [Basis ι]

inductive Step (ι : Type) [Basis ι] : Type 1
  | make {k : Kind ι} (m : Make k) (sources : List Nat)
  | next (k : Kind ι) (source : Nat)
  | observe {k : Kind ι} {α : Type} (o : Observation k α) (source : Nat) (sources : List Nat)

def Env.extracted (k : Kind ι) (answer : Option (El k × Sequence k)) : Env ι :=
  [⟨.option k, answer.map (·.1)⟩, ⟨.seq k, (answer.map (·.2)).getD .empty⟩]

def Step.perform (fuel : Nat) : Step ι → Env ι → Run ι (Env ι)
  | .make (k := k) m sources, env => do
    let s ← Run.build (m.plan (Env.pick Env.missing env sources))
    return env ++ [⟨.seq k, s⟩]
  | .next k source, env => do
    let answer ← Sequence.next fuel (env.seq k source)
    return env ++ Env.extracted k answer
  | .observe (k := k) o source sources, env => do
    let _ ← o.run (Env.pick Env.missing env sources) fuel (env.seq k source)
    return env

def Program.run (fuel : Nat) : List (Step ι) → Env ι → Run ι (Env ι)
  | [], env => return env
  | step :: rest, env => do Program.run fuel rest (← step.perform fuel env)

theorem Program.run_of_isOk {fuel : ℕ} {program : List (Step ι)} {env : Env ι} {st : Store ι}
    (h : (Program.run fuel program env st).isOk = true) :
    ∃ env' st', Program.run fuel program env st = .ok (env', st') := by
  cases hrun : Program.run fuel program env st with
  | error halt => simp [hrun, Except.isOk, Except.toBool] at h
  | ok r => exact ⟨r.1, r.2, rfl⟩

/-- Where the element of a register comes from. -/
inductive Recipe (ι : Type) [Basis ι] : Type 1
  | missing
  | made {k : Kind ι} (m : Make k) (sources : List (Recipe ι))
  | head (k : Kind ι) (source : Recipe ι)
  | tail (k : Kind ι) (source : Recipe ι)

namespace Recipe

mutual

def eval (fuel : Nat) : Recipe ι → Run ι (Σ k : Kind ι, El k)
  | .missing => return Env.missing
  | .made (k := k) m sources => do
    let env ← evalAll fuel sources
    return ⟨.seq k, ← Run.build (m.plan env)⟩
  | .head k source => do
    let r ← eval fuel source
    return ⟨.option k, (← Sequence.next fuel (Env.seq [r] k 0)).map (·.1)⟩
  | .tail k source => do
    let r ← eval fuel source
    return ⟨.seq k, ((← Sequence.next fuel (Env.seq [r] k 0)).map (·.2)).getD .empty⟩

def evalAll (fuel : Nat) : List (Recipe ι) → Run ι (Env ι)
  | [] => return []
  | recipe :: rest => do
    let r ← eval fuel recipe
    return r :: (← evalAll fuel rest)

end

def observe {k : Kind ι} {α : Type} (o : Observation k α) (source : Recipe ι)
    (sources : List (Recipe ι)) (fuel : Nat) : Run ι α := do
  let env ← evalAll fuel sources
  let r ← eval fuel source
  o.run env fuel (Env.seq [r] k 0)

end Recipe

def Step.recipes : Step ι → List (Recipe ι) → List (Recipe ι)
  | .make m sources, recipes => recipes ++ [.made m (Env.pick .missing recipes sources)]
  | .next k source, recipes =>
    recipes ++ [.head k (recipes.getD source .missing), .tail k (recipes.getD source .missing)]
  | .observe _ _ _, recipes => recipes

def Program.recipes : List (Step ι) → List (Recipe ι) → List (Recipe ι)
  | [], recipes => recipes
  | step :: rest, recipes => Program.recipes rest (step.recipes recipes)

section Readings
variable {k : Kind ι} {w : World ι}

theorem option_reads {x : Option (El k)} {v : Option (Value k)}
    (hf : ∀ y, x = some y → El.Formed w k y) (hv : x.map (El.value w k) = v) :
    Reading.register w ⟨.option k, x⟩ ⟨.option k, v⟩ := ⟨hf, hv ▸ rfl⟩

theorem sequence_reads {s : Sequence k} {S : Shown (Value k)} (h : El.reading (.seq k) w s S) :
    Reading.register w ⟨.seq k, s⟩ ⟨.seq k, S⟩ := ⟨h.1, h.2 ▸ rfl⟩

theorem head_reads {answer : Option (El k × Sequence k)}
    {r : Option ((Value k × String) × Trail (Value k))} (h : Reading.extracted k w answer r) :
    Reading.register w ⟨.option k, answer.map (·.1)⟩ ⟨.option k, r.map (·.1.1)⟩ := by
  obtain ⟨rfl, hf⟩ := h
  cases answer with
  | none => exact option_reads (fun y hy => absurd hy.symm (Option.some_ne_none y)) rfl
  | some p => exact option_reads (fun y hy => Option.some.inj hy ▸ (hf p rfl).1) rfl

theorem tail_reads {answer : Option (El k × Sequence k)}
    {r : Option ((Value k × String) × Trail (Value k))} (h : Reading.extracted k w answer r) :
    Reading.register w ⟨.seq k, (answer.map (·.2)).getD .empty⟩
      ⟨.seq k, (r.map fun p => (⟨p.1.2, p.2⟩ : Shown (Value k))).getD .empty⟩ := by
  obtain ⟨rfl, hf⟩ := h
  cases answer with
  | none => exact sequence_reads ⟨.empty, rfl⟩
  | some p => exact sequence_reads ⟨(hf p rfl).2, rfl⟩

theorem Values.seq_getD (vs : Values ι) (k : Kind ι) (i : Nat) :
    Values.seq [vs.getD i Values.missing] k 0 = vs.seq k i := by
  simp only [Values.seq, lookup, List.getElem?_cons_zero, List.getD_eq_getElem?_getD]
  cases vs[i]? with
  | none => rfl
  | some v => rfl

end Readings

namespace Recipe

/-- In every store in which nothing is being computed, the recipe makes an element with this value. -/
def Shows (recipe : Recipe ι) (v : Σ k : Kind ι, Value k) : Prop :=
  ∀ ⦃st : Store ι⦄ ⦃w : World ι⦄, st.Means w → (∀ id, ¬ st.Running id) →
    ∃ r st' w', Gives (fun fuel => recipe.eval fuel) st r st' ∧ st.Leads w st' w' ∧
      Reading.register w' r v

theorem shows_missing : Shows (.missing : Recipe ι) Values.missing :=
  fun st w hst _ => ⟨Env.missing, st, w, gives_of_eq rfl, hst.leads, trivial, rfl⟩

theorem evalAll_gives {recipes : List (Recipe ι)} {vs : Values ι}
    (h : List.Forall₂ Shows recipes vs) {st : Store ι} {w : World ι} (hst : st.Means w)
    (hquiet : ∀ id, ¬ st.Running id) :
    ∃ env st' w', Gives (fun fuel => evalAll fuel recipes) st env st' ∧ st.Leads w st' w' ∧
      Reading.env w' env vs := by
  induction h generalizing st w with
  | nil => exact ⟨[], st, w, gives_of_eq rfl, hst.leads, .nil⟩
  | cons hr _ ih =>
    obtain ⟨r, st₁, w₁, hgives, hl, hread⟩ := hr hst hquiet
    obtain ⟨env, st₂, w₂, hgives₂, hl₂, hreads⟩ :=
      ih hl.means (hl.quiet hquiet)
    refine ⟨r :: env, st₂, w₂, ?_, hl.trans hl₂,
      .cons (Reading.lasting_register hl₂.grown hread) hreads⟩
    exact hgives.bind (hgives₂.bind (gives_of_eq rfl))

theorem shows_made {k : Kind ι} (m : Make k) {sources : List (Recipe ι)} {vs : Values ι}
    {S : Shown (Value k)} (h : List.Forall₂ Shows sources vs)
    (hm : ∀ (w : World ι) (env : Env ι), Reading.env w env vs → (m.plan env).Means w S) :
    Shows (.made m sources) ⟨.seq k, S⟩ := by
  intro st w hst hquiet
  obtain ⟨env, st₁, w₁, hgives, hl, henv⟩ := evalAll_gives h hst hquiet
  obtain ⟨w₂, hl₂, hs⟩ := Plan.build_means (hm w₁ env henv) hl.means
  exact ⟨_, _, w₂, hgives.bind (gives_of_eq rfl), hl.trans hl₂, sequence_reads hs⟩

theorem extract_gives {source : Recipe ι} {v : Σ k : Kind ι, Value k} (h : Shows source v)
    {k : Kind ι} {r : Option ((Value k × String) × Trail (Value k))} {n : ℕ}
    (hr : (Values.seq [v] k 0).trail = think^[n] (front r)) {st : Store ι} {w : World ι}
    (hst : st.Means w) (hquiet : ∀ id, ¬ st.Running id) :
    ∃ x st₁ answer st' w', Gives (fun fuel => source.eval fuel) st x st₁ ∧
      Gives (fun fuel => Sequence.next fuel (Env.seq [x] k 0)) st₁ answer st' ∧
      st.Leads w st' w' ∧ Reading.extracted k w' answer r := by
  obtain ⟨x, st₁, w₁, hgives, hl, hread⟩ := h hst hquiet
  have hs := seq_reads (.cons hread .nil) k 0
  have htrail : trail w₁ (Env.seq [x] k 0) = think^[n] (front r) := by
    rw [← hr, ← hs.2]
    rfl
  obtain ⟨answer, st₂, w₂, hnext, hl₂, hreads⟩ := (next_adequate hl.means hs.1).gives
    (hl.quiet hquiet) ⟨n, htrail⟩
  exact ⟨x, st₁, answer, st₂, w₂, hgives, hnext, hl.trans hl₂, hreads⟩

theorem shows_head {source : Recipe ι} {v : Σ k : Kind ι, Value k} (h : Shows source v)
    {k : Kind ι} {r : Option ((Value k × String) × Trail (Value k))} {n : ℕ}
    (hr : (Values.seq [v] k 0).trail = think^[n] (front r)) :
    Shows (.head k source) ⟨.option k, r.map (·.1.1)⟩ := by
  intro st w hst hquiet
  obtain ⟨x, st₁, answer, st₂, w₂, hgives, hnext, hl, hreads⟩ := extract_gives h hr hst hquiet
  exact ⟨_, st₂, w₂, hgives.bind (hnext.bind (gives_of_eq rfl)), hl, head_reads hreads⟩

theorem shows_tail {source : Recipe ι} {v : Σ k : Kind ι, Value k} (h : Shows source v)
    {k : Kind ι} {r : Option ((Value k × String) × Trail (Value k))} {n : ℕ}
    (hr : (Values.seq [v] k 0).trail = think^[n] (front r)) :
    Shows (.tail k source)
      ⟨.seq k, (r.map fun p => (⟨p.1.2, p.2⟩ : Shown (Value k))).getD .empty⟩ := by
  intro st w hst hquiet
  obtain ⟨x, st₁, answer, st₂, w₂, hgives, hnext, hl, hreads⟩ := extract_gives h hr hst hquiet
  exact ⟨_, st₂, w₂, hgives.bind (hnext.bind (gives_of_eq rfl)), hl, tail_reads hreads⟩

end Recipe

/-- Register by register, the elements of a run and the recipes stand for the same values. -/
structure Kept (recipes : List (Recipe ι)) (env : Env ι) (vs : Values ι) (st : Store ι)
    (w : World ι) : Prop where
  means : st.Means w
  quiet : ∀ id, ¬ st.Running id
  reads : Reading.env w env vs
  recipes : List.Forall₂ Recipe.Shows recipes vs

section Kept
variable {recipes : List (Recipe ι)} {env : Env ι} {vs : Values ι} {st st' : Store ι}
  {w w' : World ι}

theorem kept_empty : Kept (ι := ι) [] [] [] Store.empty [] where
  means := Store.means_empty true #[]
  quiet := Store.not_running_empty true #[]
  reads := .nil
  recipes := .nil

theorem shows_getD (h : List.Forall₂ Recipe.Shows recipes vs) (i : Nat) :
    Recipe.Shows (recipes.getD i .missing) (vs.getD i Values.missing) := by
  induction h generalizing i with
  | nil => exact Recipe.shows_missing
  | cons hr _ ih =>
    cases i with
    | zero => exact hr
    | succ i => exact ih i

theorem shows_pick (h : List.Forall₂ Recipe.Shows recipes vs) (sources : List Nat) :
    List.Forall₂ Recipe.Shows (Env.pick .missing recipes sources)
      (Env.pick Values.missing vs sources) := by
  induction sources with
  | nil => exact .nil
  | cons i rest ih => exact .cons (shows_getD h i) ih

theorem Kept.extend (h : Kept recipes env vs st w) (hl : st.Leads w st' w') {env₁ : Env ι}
    {vs₁ : Values ι} {recipes₁ : List (Recipe ι)} (henv : Reading.env w' env₁ vs₁)
    (hrecipes : List.Forall₂ Recipe.Shows recipes₁ vs₁) :
    Kept (recipes ++ recipes₁) (env ++ env₁) (vs ++ vs₁) st' w' where
  means := hl.means
  quiet id := hl.quiet h.quiet id
  reads := List.rel_append (Reading.lasting_env hl.grown h.reads) henv
  recipes := List.rel_append h.recipes hrecipes

/-- A step keeps elements and recipes in agreement. -/
theorem Step.perform_keeps (h : Kept recipes env vs st w) (step : Step ι) {fuel : Nat}
    {env' : Env ι} (hrun : step.perform fuel env st = .ok (env', st')) :
    ∃ vs' w', st.Leads w st' w' ∧ Kept (step.recipes recipes) env' vs' st' w' := by
  cases step with
  | make m sources =>
    obtain ⟨g, hg⟩ := m.plan_reads
    obtain ⟨rfl, rfl⟩ := Run.pure_eq_ok.1 hrun
    have hm : ∀ (w : World ι) (env₁ : Env ι),
        Reading.env w env₁ (Env.pick Values.missing vs sources) →
        (m.plan env₁).Means w (g (Env.pick Values.missing vs sources)) :=
      fun w env₁ henv => hg w w List.prefix_rfl env₁ _ henv
    obtain ⟨w', hl, hs⟩ := Plan.build_means (hm w _ (pick_reads h.reads sources)) h.means
    exact ⟨_, w', hl, h.extend hl (.cons (sequence_reads hs) .nil)
      (.cons (Recipe.shows_made m (shows_pick h.recipes sources) hm) .nil)⟩
  | next k source =>
    obtain ⟨answer, st₁, hnext, hrun⟩ := Run.bind_eq_ok.1 hrun
    obtain ⟨rfl, rfl⟩ := Run.pure_eq_ok.1 hrun
    have hs := seq_reads h.reads k source
    obtain ⟨w', r, hl, ⟨n, hr⟩, hreads⟩ := (next_adequate h.means hs.1).sound hnext
    have htrail : (Values.seq [vs.getD source Values.missing] k 0).trail = think^[n] (front r) := by
      rw [Values.seq_getD, ← hr, ← hs.2]
      rfl
    have hrecipe := shows_getD h.recipes source
    exact ⟨_, w', hl, h.extend hl (.cons (head_reads hreads) (.cons (tail_reads hreads) .nil))
      (.cons (Recipe.shows_head hrecipe htrail) (.cons (Recipe.shows_tail hrecipe htrail) .nil))⟩
  | @observe k α o source sources =>
    obtain ⟨answer, st₁, ho, hrun⟩ := Run.bind_eq_ok.1 hrun
    obtain ⟨rfl, rfl⟩ := Run.pure_eq_ok.1 hrun
    have hs := seq_reads h.reads k source
    obtain ⟨w', -, hl, -⟩ :=
      (o.adequate h.means (pick_reads h.reads sources) hs).sound ho
    have hkept := h.extend hl .nil .nil
    simp only [List.append_nil] at hkept
    exact ⟨vs, w', hl, hkept⟩

theorem Program.run_keeps (program : List (Step ι)) {fuel : Nat} {env' : Env ι}
    (h : Kept recipes env vs st w) (hrun : Program.run fuel program env st = .ok (env', st')) :
    ∃ vs' w', st.Leads w st' w' ∧ Kept (Program.recipes program recipes) env' vs' st' w' := by
  induction program generalizing recipes env vs st w with
  | nil =>
    obtain ⟨rfl, rfl⟩ := Run.pure_eq_ok.1 hrun
    exact ⟨vs, w, h.means.leads, h⟩
  | cons step rest ih =>
    obtain ⟨env₁, st₁, hstep, hrun⟩ := Run.bind_eq_ok.1 hrun
    obtain ⟨vs₁, w₁, hl, hkept⟩ := step.perform_keeps h hstep
    obtain ⟨vs', w', hl', hkept'⟩ := ih hkept hrun
    exact ⟨vs', w', hl.trans hl', hkept'⟩

/-- What an observation in a run answers, it answers when it is made anew from the recipe alone. -/
theorem Kept.observe_gives (h : Kept recipes env vs st w) {k : Kind ι} {α : Type}
    (o : Observation k α) (source : Nat) (sources : List Nat) {fuel : Nat} {answer : α}
    (ho : o.run (Env.pick Env.missing env sources) fuel (env.seq k source) st = .ok (answer, st'))
    {st₁ : Store ι} {w₁ : World ι} (hst : st₁.Means w₁) (hquiet : ∀ id, ¬ st₁.Running id) :
    ∃ st₂, Gives (Recipe.observe o (recipes.getD source .missing)
      (Env.pick .missing recipes sources)) st₁ answer st₂ := by
  have hs := seq_reads h.reads k source
  obtain ⟨w', b, -, hanswers, rfl⟩ := (o.adequate h.means (pick_reads h.reads sources) hs).sound ho
  obtain ⟨env₂, st₂, w₂, hall, hl, henv⟩ :=
    Recipe.evalAll_gives (shows_pick h.recipes sources) hst hquiet
  obtain ⟨x, st₃, w₃, heval, hl', hx⟩ :=
    shows_getD h.recipes source hl.means (hl.quiet hquiet)
  have hs' := seq_reads (.cons hx .nil) k 0
  rw [Values.seq_getD] at hs'
  obtain ⟨a, st₄, w₄, hgives, -, rfl⟩ :=
    (o.adequate hl'.means (Reading.lasting_env hl'.grown henv) hs').gives
      ((hl.trans hl').quiet hquiet) hanswers
  exact ⟨st₄, hall.bind (heval.bind hgives)⟩

end Kept

end MemoSequence
