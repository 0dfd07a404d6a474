import MemoSequence.Proofs.Recipes
import MemoSequence.Proofs.Endlessness
set_option autoImplicit false

namespace MemoSequence

variable {ι : Type} [Basis ι] {k : Kind ι}

namespace Store
variable {st st₁ st' : Store ι}

/-- Every cell that does not wait any more is left as it is. -/
def Settles (st st' : Store ι) : Prop :=
  ∀ ⦃id : Nat⦄ ⦃c : Cell ι⦄, st.cells[id]? = some c → c.memo ≠ .unforced → st'.cells[id]? = some c

theorem Settles.refl (st : Store ι) : st.Settles st := fun _ _ hc _ => hc

theorem Settles.trans (h : st.Settles st₁) (h' : st₁.Settles st') : st.Settles st' :=
  fun _ _ hc hm => h' (h hc hm) hm

theorem settles_of_cells (hc : st'.cells = st.cells) : st.Settles st' :=
  fun _ _ h _ => hc ▸ h

theorem settles_alloc (st : Store ι) (p : Plan k) : st.Settles (st.alloc p).2 := by
  intro id c hc _
  have hid : id < st.cells.size := (Array.getElem?_eq_some_iff.1 hc).1
  rw [Store.alloc, Array.getElem?_push, if_neg (by omega), hc]

theorem getElem?_setMemo_of_ne {id j : Nat} (h : id ≠ j) (p : Plan k) (m : Memo (Sequence k)) :
    (st.setMemo id p m).cells[j]? = st.cells[j]? := by
  unfold setMemo
  split
  · exact Array.getElem?_setIfInBounds_ne h
  · rfl

theorem Settles.peek? (h : st.Settles st') {id : Nat} {v : Sequence k}
    (hv : st.peek? k id = some v) : st'.peek? k id = some v := by
  obtain ⟨p, hc⟩ := peek?_eq_some.1 hv
  exact peek?_eq_some.2 ⟨p, h hc nofun⟩

theorem Settles.endless (h : st.Settles st') {s : Sequence k} (he : st.Endless s) :
    st'.Endless s := by
  induction he with
  | source => exact .source
  | tail _ ih => exact .tail ih
  | part hs _ ih => exact .part hs ih
  | value hv _ ih => exact .value (h.peek? hv) ih

theorem Settles.isUnbounded (h : st.Settles st') {s : Sequence k} (hs : st.isUnbounded s = true) :
    st'.isUnbounded s = true := (isUnbounded_iff s).2 (h.endless ((isUnbounded_iff s).1 hs))

end Store

theorem Plan.build_settles (p : Plan k) (st : Store ι) : st.Settles (p.build st).2 := by
  induction p generalizing st with
  | given s => exact .refl st
  | cons head tail ih => exact ih st
  | append a b iha ihb => exact (iha st).trans (ihb _)
  | defer note body _ => exact st.settles_alloc _
  | map input f ih => exact (ih st).trans (Store.settles_alloc _ _)
  | mapPlan input f note ih _ => exact (ih st).trans (Store.settles_alloc _ _)
  | flatten outer ih => exact (ih st).trans (Store.settles_alloc _ _)
  | take input count ih =>
    by_cases hc : count = 0
    · simpa only [Plan.build, hc, if_true] using ih st
    · simpa only [Plan.build, hc, if_false] using (ih st).trans (Store.settles_alloc _ _)
  | takeWhile input p ih => exact (ih st).trans (Store.settles_alloc _ _)
  | skip input count ih => exact (ih st).trans (Store.settles_alloc _ _)
  | scan input state step ih => exact (ih st).trans (Store.settles_alloc _ _)
  | stateScan input state step ih => exact (ih st).trans (Store.settles_alloc _ _)

namespace Run
variable {α β : Type}

def Settling (m : Run ι α) : Prop := ∀ ⦃st a st'⦄, m st = .ok (a, st') → st.Settles st'

theorem settling_pure (a : α) : Settling (pure a : Run ι α) := by
  intro st b st' h
  obtain ⟨-, rfl⟩ := pure_eq_ok.1 h
  exact .refl st

theorem Settling.bind {m : Run ι α} {f : α → Run ι β} (hm : m.Settling)
    (hf : ∀ a, (f a).Settling) : (m >>= f).Settling := by
  intro st b st' h
  obtain ⟨a, st₁, ha, h⟩ := bind_eq_ok.1 h
  exact (hm ha).trans (hf a h)

theorem settling_halt (why : Halt) : Settling (halt why : Run ι α) := nofun

theorem settling_write (note : Option Note) : Settling (write note : Run ι Unit) := by
  intro st a st' h
  obtain ⟨-, rfl⟩ := Prod.mk.inj (Except.ok.inj h)
  exact Store.settles_of_cells (st.cells_write note)

theorem settling_build (p : Plan k) : Settling (build p) := by
  intro st s st' h
  obtain ⟨-, rfl⟩ := Prod.mk.inj (Except.ok.inj h)
  exact p.build_settles st

theorem settling_call (f : Fn α β) (x : α) : Settling (call f x : Run ι β) :=
  (settling_write _).bind fun _ => settling_pure _

theorem Notes.settling {m : Run ι α} {a : α} (h : m.Notes a) : m.Settling := by
  intro st b st' hb
  obtain ⟨st₁, h₁, hcells, -⟩ := h st
  obtain ⟨-, rfl⟩ := Prod.mk.inj (Except.ok.inj (h₁.symm.trans hb))
  exact Store.settles_of_cells hcells

theorem settling_force {unfold : {k : Kind ι} → Plan k → Run ι (Sequence k)}
    (hu : ∀ {k : Kind ι} (p : Plan k), (unfold p).Settling) (id : Nat) :
    (force unfold k id).Settling := by
  intro st v st' h
  obtain ⟨p, ⟨-, rfl⟩ | ⟨hid, st₁, hp, rfl⟩⟩ := force_cases h
  · exact .refl _
  intro j c hc hm
  have hne : id ≠ j := by
    rintro rfl
    obtain rfl := Option.some.inj (hid.symm.trans hc)
    exact hm rfl
  have hmarked : (st.setMemo id p .running).cells[j]? = some c := by
    rw [Store.getElem?_setMemo_of_ne hne, hc]
  rw [Store.getElem?_setMemo_of_ne hne]
  exact hu p hp hmarked hm

end Run

section Extracting
open Run

theorem Sequence.settling_advance {next : Extraction ι}
    (hn : ∀ (k : Kind ι) (s : Sequence k), (next k s).Settling) (count : Nat) (s : Sequence k) :
    (Sequence.advance next count s).Settling := by
  induction count generalizing s with
  | zero => exact settling_pure s
  | succ count ih =>
    refine (hn k s).bind fun answer => ?_
    cases answer with
    | none => exact settling_pure _
    | some p => exact ih p.2

theorem Plan.settling_asks {next : Extraction ι}
    (hn : ∀ (k : Kind ι) (s : Sequence k), (next k s).Settling) {β : Type} (input : Plan k)
    {more : Option (El k × Sequence k) → Run ι β} (hnone : (more none).Settling)
    (hsome : ∀ x tail, (more (some (x, tail))).Settling) :
    Settling (do
      let s ← Run.build input
      let answer ← next k s
      more answer) := by
  refine (settling_build input).bind fun s => (hn k s).bind fun answer => ?_
  cases answer with
  | none => exact hnone
  | some p => exact hsome p.1 p.2

theorem Plan.settling_unfold {next : Extraction ι}
    (hn : ∀ (k : Kind ι) (s : Sequence k), (next k s).Settling) (p : Plan k) :
    (p.unfold next).Settling := by
  cases p with
  | given s => exact settling_pure s
  | cons head tail => exact settling_build _
  | append a b => exact settling_build _
  | defer note body => exact (settling_write note).bind fun _ => settling_build _
  | map input f =>
    exact settling_asks hn input (settling_pure _) fun x _ =>
      (settling_call f x).bind fun _ => settling_build _
  | mapPlan input f note =>
    exact settling_asks hn input (settling_pure _) fun x _ =>
      (settling_write _).bind fun _ => (settling_build (f x)).bind fun _ => settling_build _
  | flatten outer =>
    exact settling_asks hn outer (settling_pure _) fun _ _ => settling_build _
  | take input count =>
    exact settling_asks hn input (settling_pure _) fun _ _ => settling_build _
  | takeWhile input p =>
    refine settling_asks hn input (settling_pure _) fun x _ =>
      (settling_call p x).bind fun b => ?_
    cases b with
    | true => exact settling_build _
    | false => exact settling_pure _
  | skip input count =>
    exact (settling_build input).bind fun s => Sequence.settling_advance hn count s
  | scan input state step =>
    exact settling_asks hn input (settling_pure _) fun x _ =>
      (settling_call step (state, x)).bind fun _ => settling_build _
  | stateScan input state step =>
    exact settling_asks hn input (settling_pure _) fun x _ =>
      (settling_call step (state, x)).bind fun _ => settling_build _

theorem Sequence.settling_turn {force : Nat → Run ι (Sequence k)}
    (hf : ∀ id, (force id).Settling) (current : Sequence k)
    (opened : List (Segments (Sequence k))) : (Sequence.turn force current opened).Settling := by
  cases current with
  | empty => exact settling_pure _
  | one head tail => exact settling_pure _
  | composite parts => exact settling_pure _
  | generated index limit source =>
    simp only [Sequence.turn]
    cases source.at? index with
    | none => exact settling_halt _
    | some head => exact (settling_write _).bind fun _ => settling_pure _
  | lazy id => exact (hf id).bind fun _ => settling_pure _

theorem Sequence.settling_visit (fuel : Nat) {k : Kind ι} (current : Sequence k)
    (opened : List (Segments (Sequence k))) : (Sequence.visit fuel current opened).Settling := by
  induction fuel generalizing k current opened with
  | zero => exact settling_halt _
  | succ fuel ih =>
    have hforce : ∀ id,
        (Run.force (Plan.unfold fun _ s => Sequence.visit fuel s []) k id).Settling :=
      settling_force fun p => p.settling_unfold fun _ s => ih s []
    refine (Sequence.settling_turn hforce current opened).bind fun t => ?_
    cases t with
    | found answer => exact settling_pure answer
    | onward current opened => exact ih current opened

theorem Sequence.settling_next (fuel : Nat) (s : Sequence k) : (Sequence.next fuel s).Settling :=
  Sequence.settling_visit fuel s []

theorem Sequence.settling_traverse {σ : Type} {step : σ → El k → Run ι (ForInStep σ)}
    (hstep : ∀ state x, (step state x).Settling) (fuel : Nat) (state : σ) (s : Sequence k) :
    (Sequence.traverse step fuel state s).Settling := by
  induction fuel generalizing state s with
  | zero => exact settling_halt _
  | succ fuel ih =>
    refine (Sequence.settling_next fuel s).bind fun answer => ?_
    cases answer with
    | none => exact settling_pure state
    | some p =>
      refine (hstep state p.1).bind fun decision => ?_
      cases decision with
      | done state => exact settling_pure state
      | yield state => exact ih state p.2

end Extracting

section Consumers
open Run
variable (fuel : Nat) (s : Sequence k)

theorem Sequence.settling_first : (Sequence.first? fuel s).Settling :=
  (Sequence.settling_next fuel s).bind fun _ => settling_pure _

theorem Sequence.settling_fold {σ : Type} (f : Fn (σ × El k) σ) (start : σ) :
    (Sequence.fold f start fuel s).Settling :=
  Sequence.settling_traverse (fun _ _ => (settling_call _ _).bind fun _ => settling_pure _) _ _ _

theorem Sequence.settling_all (p : Fn (El k) Bool) : (Sequence.all p fuel s).Settling :=
  Sequence.settling_traverse (fun _ x => (notes_test p x _ _).settling) _ _ _

theorem Sequence.settling_any (p : Fn (El k) Bool) : (Sequence.any p fuel s).Settling :=
  Sequence.settling_traverse (fun _ x => (notes_test p x _ _).settling) _ _ _

theorem Sequence.settling_find (p : Fn (El k) Bool) : (Sequence.find? p fuel s).Settling :=
  Sequence.settling_traverse (fun _ x => (notes_test p x _ _).settling) _ _ _

theorem Sequence.settling_toList : (Sequence.toList fuel s).Settling :=
  (Sequence.settling_traverse (fun _ _ => settling_pure _) _ _ _).bind fun _ => settling_pure _

theorem Sequence.settling_toListBounded (limit : Nat) :
    (Sequence.toListBounded limit fuel s).Settling := by
  have hstep : ∀ seen x, (collectBounded (ι := ι) (k := k) limit seen x).Settling := by
    intro seen x
    obtain ⟨decision, h⟩ := notes_collectBounded limit seen x
    exact h.settling
  exact (Sequence.settling_traverse hstep fuel _ s).bind fun _ => settling_pure _

theorem Observation.settling {α : Type} (o : Observation k α) (env : Env ι) :
    (o.run env fuel s).Settling := by
  cases o with
  | next => exact (Sequence.settling_next fuel s).bind fun _ => settling_pure _
  | first => exact (Sequence.settling_first fuel s).bind fun _ => settling_pure _
  | fold f start => exact (Sequence.settling_fold fuel s _ _).bind fun _ => settling_pure _
  | find p => exact (Sequence.settling_find fuel s _).bind fun _ => settling_pure _
  | every p => exact Sequence.settling_all fuel s _
  | some p => exact Sequence.settling_any fuel s _
  | toVec => exact (Sequence.settling_toList fuel s).bind fun _ => settling_pure _
  | toVecBounded limit =>
    exact (Sequence.settling_toListBounded fuel s limit).bind fun _ => settling_pure _
  | isEmpty => exact settling_pure _
  | debug => exact settling_pure _

end Consumers

section Programs
open Run

theorem Step.settling (step : Step ι) (fuel : Nat) (env : Env ι) :
    (step.perform fuel env).Settling := by
  cases step with
  | make m sources => exact (settling_build _).bind fun _ => settling_pure _
  | next k source => exact (Sequence.settling_next fuel _).bind fun _ => settling_pure _
  | observe o source sources => exact (o.settling fuel _ _).bind fun _ => settling_pure _

theorem Program.settling (program : List (Step ι)) (fuel : Nat) (env : Env ι) :
    (Program.run fuel program env).Settling := by
  induction program generalizing env with
  | nil => exact settling_pure env
  | cons step rest ih => exact (step.settling fuel env).bind fun env => ih env

end Programs

end MemoSequence
