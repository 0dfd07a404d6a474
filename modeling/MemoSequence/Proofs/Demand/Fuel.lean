import MemoSequence.Consume
import MemoSequence.Proofs.Arrival
set_option autoImplicit false

namespace MemoSequence

variable {ι : Type} [Basis ι] {k : Kind ι}

namespace Run
variable {α β : Type} {m m' : Run ι α} {f f' : α → Run ι β}

def Extends (m m' : Run ι α) : Prop := ∀ (st : Store ι) (r : α × Store ι), m st = .ok r → m' st = .ok r

theorem Extends.refl (m : Run ι α) : m.Extends m := fun _ _ h => h

theorem Extends.bind (h : m.Extends m') (hf : ∀ a, (f a).Extends (f' a)) :
    (m >>= f).Extends (m' >>= f') := by
  rintro st ⟨b, st'⟩ hrun
  obtain ⟨a, st₁, ha, hb⟩ := bind_eq_ok.1 hrun
  exact bind_eq_ok.2 ⟨a, st₁, h _ _ ha, hf a _ _ hb⟩

theorem Extends.then (m : Run ι α) (hf : ∀ a, (f a).Extends (f' a)) : (m >>= f).Extends (m >>= f') :=
  (Extends.refl m).bind hf

theorem Extends.followed (h : m.Extends m') (f : α → Run ι β) : (m >>= f).Extends (m' >>= f) :=
  h.bind fun _ => .refl _

end Run

variable {next next' : Extraction ι}

theorem advance_extends (hn : ∀ a s, (next a s).Extends (next' a s)) (count : ℕ) (s : Sequence k) :
    (Sequence.advance next count s).Extends (Sequence.advance next' count s) := by
  induction count generalizing s with
  | zero => exact .refl _
  | succ count ih =>
    refine (hn k s).bind fun answer => ?_
    rcases answer with _ | ⟨x, tail⟩
    · exact .refl _
    · exact ih tail

theorem unfold_extends (hn : ∀ a s, (next a s).Extends (next' a s)) {k : Kind ι} (p : Plan k) :
    (p.unfold next).Extends (p.unfold next') := by
  cases p with
  | given s => exact .refl _
  | cons head tail => exact .refl _
  | append a b => exact .refl _
  | defer note body => exact .refl _
  | map input f => exact .then _ fun s => (hn _ s).followed _
  | mapPlan input f note => exact .then _ fun s => (hn _ s).followed _
  | flatten outer => exact .then _ fun s => (hn _ s).followed _
  | take input count => exact .then _ fun s => (hn _ s).followed _
  | takeWhile input p => exact .then _ fun s => (hn _ s).followed _
  | skip input count => exact .then _ fun s => advance_extends hn count s
  | scan input state step => exact .then _ fun s => (hn _ s).followed _
  | stateScan input state step => exact .then _ fun s => (hn _ s).followed _

theorem force_extends (hn : ∀ a s, (next a s).Extends (next' a s)) (k : Kind ι) (id : ℕ) :
    (Run.force (Plan.unfold next) k id).Extends (Run.force (Plan.unfold next') k id) := by
  rintro st ⟨v, st'⟩ h
  obtain ⟨p, ⟨hc, rfl⟩ | ⟨hc, st₁, hu, rfl⟩⟩ := force_cases h
  · simp only [Run.force, Store.find?_eq_some.2 hc]
  · simp only [Run.force, Store.find?_eq_some.2 hc]
    simp only [unfold_extends hn p _ _ hu]

theorem visit_extends {fuel fuel' : ℕ} (hfuel : fuel ≤ fuel') {k : Kind ι} (current : Sequence k)
    (opened : List (Segments (Sequence k))) :
    (Sequence.visit fuel current opened).Extends (Sequence.visit fuel' current opened) := by
  induction fuel generalizing fuel' k current opened with
  | zero =>
    intro st r h
    cases h
  | succ fuel ih =>
    obtain ⟨fuel', rfl⟩ : ∃ n, fuel' = n + 1 := ⟨fuel' - 1, by omega⟩
    have hle : fuel ≤ fuel' := Nat.le_of_succ_le_succ hfuel
    refine Run.Extends.bind ?_ fun turn => ?_
    · cases current with
      | lazy id => exact (force_extends (fun _ s => ih hle s []) k id).followed _
      | empty => exact .refl _
      | one head tail => exact .refl _
      | composite parts => exact .refl _
      | generated index limit source => exact .refl _
    · cases turn with
      | found answer => exact .refl _
      | onward current opened => exact ih hle current opened

theorem extract_extends {fuel fuel' : ℕ} (hfuel : fuel ≤ fuel') (count : ℕ) (seen : Array (El k))
    (s : Sequence k) :
    (Sequence.extract fuel count seen s).Extends (Sequence.extract fuel' count seen s) := by
  induction count generalizing seen s with
  | zero => exact .refl _
  | succ count ih =>
    refine Run.Extends.bind (visit_extends hfuel s []) fun answer => ?_
    rcases answer with _ | ⟨x, tail⟩
    · exact .refl _
    · exact ih (seen.push x) tail

theorem Gives.of_returned {α : Type} {run : ℕ → Run ι α} {st st₁ st₂ : Store ι} {a b : α} {fuel : ℕ}
    (h : Gives run st a st₁) (hrun : ∀ {fuel fuel'}, fuel ≤ fuel' → (run fuel).Extends (run fuel'))
    (hreturned : run fuel st = .ok (b, st₂)) : b = a ∧ st₂ = st₁ := by
  obtain ⟨N, hN⟩ := h
  have hmore := hrun (le_max_left fuel N) _ _ hreturned
  exact Prod.mk.inj (Except.ok.inj (hmore.symm.trans (hN _ (le_max_right fuel N))))

end MemoSequence
