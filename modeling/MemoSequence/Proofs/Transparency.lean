import MemoSequence.Element
import MemoSequence.Proofs.Recipes
set_option autoImplicit false

namespace MemoSequence

section Transparency
variable {ι : Type} [Basis ι] {k : Kind ι} {α : Type}

/-- An observation of the register `source` after a run of the program. Its functions may use the
registers `sources`. -/
def Program.observe (program : List (Step ι)) (o : Observation k α) (source : Nat)
    (sources : List Nat) (fuel : Nat) : Run ι α := do
  let env ← Program.run fuel program []
  o.run (Env.pick Env.missing env sources) fuel (env.seq k source)

/-- The same observation, of what the recipes of these registers make. -/
def Program.observeAlone (program : List (Step ι)) (o : Observation k α) (source : Nat)
    (sources : List Nat) (fuel : Nat) : Run ι α :=
  Recipe.observe o ((Program.recipes program []).getD source .missing)
    (Env.pick .missing (Program.recipes program []) sources) fuel

def Program.Answers (program : List (Step ι)) (o : Observation k α) (source : Nat)
    (sources : List Nat) (answer : α) : Prop :=
  ∃ fuel, (Program.observe program o source sources fuel Store.empty).map Prod.fst = .ok answer

variable {program : List (Step ι)} {o : Observation k α} {source : Nat} {sources : List Nat}
  {answer : α}

theorem Program.Answers.alone (h : Program.Answers program o source sources answer) :
    ∃ st, Gives (Program.observeAlone program o source sources) Store.forgetful answer st := by
  obtain ⟨fuel, h⟩ := h
  cases hobs : Program.observe program o source sources fuel Store.empty with
  | error halt => simp [hobs, Except.map] at h
  | ok r =>
    obtain ⟨a, st'⟩ := r
    obtain rfl : a = answer := by simpa [hobs, Except.map] using h
    obtain ⟨env, st, hrun, ho⟩ := Run.bind_eq_ok.1 hobs
    obtain ⟨vs, w, -, hkept⟩ := Program.run_keeps program kept_empty hrun
    exact hkept.observe_gives o source sources ho (Store.means_empty false #[])
      (Store.not_running_empty false #[])

/-- An observation answers as if there were no memory, and equal recipes get equal answers, whatever
else the programs do. -/
theorem answers_without_memory (h : Program.Answers program o source sources answer) :
    (∃ st, Gives (Program.observeAlone program o source sources) Store.forgetful answer st) ∧
      ∀ {program' : List (Step ι)} {source' : Nat} {sources' : List Nat} {answer' : α},
        Program.Answers program' o source' sources' answer' →
        Program.observeAlone program' o source' sources' =
          Program.observeAlone program o source sources →
        answer' = answer := by
  obtain ⟨st, hst⟩ := h.alone
  refine ⟨⟨st, hst⟩, fun h' hsame => ?_⟩
  obtain ⟨st', hst'⟩ := h'.alone
  rw [hsame] at hst'
  exact (hst'.unique hst).1

end Transparency

def doubling : List (Step Atom) :=
  [.make (k := .nat) (.fromVec (.plain El.plain_nats [1, 2, 3])) [],
   .make (k := .nat) (.map 0 (.fn El.plain_nat El.plain_nat (.counted (2 * ·)))) [0],
   .observe (k := .nat) .first 1 [],
   .next .nat 1,
   .make (k := .seq .nat) (.one (.held .nat 0)) [1],
   .make (k := .seq .nat) (.cons (.held .nat 0) 1) [3, 4],
   .make (k := .nat) (.flatten 0) [5]]

theorem doubling_answers_without_memory :
    Program.Answers (k := .nat) doubling .toVec 6 [] [4, 6, 2, 4, 6] ∧
      ∃ st, Gives (Program.observeAlone (k := .nat) doubling .toVec 6 []) Store.forgetful
        [4, 6, 2, 4, 6] st :=
  have h : Program.Answers (k := .nat) doubling .toVec 6 [] [4, 6, 2, 4, 6] :=
    ⟨30, by decide +kernel⟩
  ⟨h, (answers_without_memory h).1⟩

end MemoSequence
