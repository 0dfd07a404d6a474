import Mathlib.Logic.Equiv.List
import MemoSequence.Proofs.Traversal
set_option autoImplicit false

/-!
# Programs

A program works on registers that hold elements of any kind, sequences among them. A step makes a
sequence by one of the constructors or combinators, extracts from a sequence, or observes one.

What a step is given besides registers, such as the function of a `map`, is computed from the registers
and has to be uniform: in every world it stands for something that depends only on what the registers
show. Pure functions are, since they know a sequence only through its interface. Between kinds without
sequences every function is uniform. A function sees no store, so it asks nothing of a sequence itself: whatever
is asked for is asked for by observers and by the plans of deferred parts.
-/
namespace MemoSequence
open Stream'.WSeq (think)
open Sequence (Formed trail)

variable {ι : Type} [Basis ι]

abbrev Env (ι : Type) [Basis ι] : Type := List (Σ k : Kind ι, El k)

abbrev Values (ι : Type) [Basis ι] : Type := List (Σ k : Kind ι, Value k)

def lookup {F : Kind ι → Type} (k : Kind ι) (items : List (Σ k : Kind ι, F k)) (i : Nat) :
    Option (F k) :=
  match items[i]? with
  | some ⟨kind, x⟩ => if h : kind = k then some (h ▸ x) else none
  | none => none

namespace Reading

def register : Reading ι (Σ k : Kind ι, El k) (Σ k : Kind ι, Value k) :=
  fun w r v => El.Formed w r.1 r.2 ∧ ⟨r.1, El.value w r.1 r.2⟩ = v

def env : Reading ι (Env ι) (Values ι) := register.list

theorem lasting_register : (register : Reading ι _ _).Lasting :=
  fun _ _ hw _ _ h => ⟨h.1.mono hw, h.2 ▸ (congrArg (Sigma.mk _) (h.1.value_eq hw)).symm⟩

theorem lasting_env : (env : Reading ι _ _).Lasting := lasting_register.list

def noted {α β V U : Type} (R : Reading ι α V) (S : Reading ι β U) :
    Reading ι (Fn α β) (V → U) := fun w f g => R.fn S w f.apply g

end Reading

namespace Env

/-- A register read as a sequence; one that holds something else reads as the empty sequence. -/
def seq (env : Env ι) (k : Kind ι) (i : Nat) : Sequence k := (lookup (.seq k) env i).getD .empty

def pick {α : Type*} (missing : α) (registers : List α) (sources : List Nat) : List α :=
  sources.map fun i => registers.getD i missing

def missing : Σ k : Kind ι, El k := ⟨.nat, (0 : Nat)⟩

end Env

namespace Values

def seq (values : Values ι) (k : Kind ι) (i : Nat) : Shown (Value k) :=
  (lookup (.seq k) values i).getD .empty

def missing : Σ k : Kind ι, Value k := ⟨.nat, (0 : Nat)⟩

end Values

theorem seq_reads {w : World ι} {env : Env ι} {values : Values ι}
    (h : Reading.env w env values) (k : Kind ι) (i : Nat) :
    El.reading (.seq k) w (env.seq k i) (values.seq k i) := by
  have hempty : El.reading (.seq k) w (.empty : Sequence k) .empty := ⟨.empty, rfl⟩
  induction h generalizing i with
  | nil => exact hempty
  | @cons r v _ _ hr _ ih =>
    cases i with
    | succ i => exact ih i
    | zero =>
      obtain ⟨kind, x⟩ := r
      obtain ⟨hx, rfl⟩ := hr
      by_cases hk : kind = .seq k
      · subst hk
        simp only [Env.seq, Values.seq, lookup, List.getElem?_cons_zero, dite_true,
          Option.getD_some]
        exact ⟨hx, rfl⟩
      · simp only [Env.seq, Values.seq, lookup, List.getElem?_cons_zero, hk, dite_false,
          Option.getD_none]
        exact hempty

theorem pick_reads {w : World ι} {env : Env ι} {values : Values ι}
    (h : Reading.env w env values) (sources : List Nat) :
    Reading.env w (Env.pick Env.missing env sources) (Env.pick Values.missing values sources) := by
  have hat : ∀ i, Reading.register w (env.getD i Env.missing) (values.getD i Values.missing) := by
    induction h with
    | nil => exact fun i => ⟨trivial, rfl⟩
    | cons hr _ ih =>
      intro i
      cases i with
      | zero => exact hr
      | succ i => exact ih i
  induction sources with
  | nil => exact .nil
  | cons i rest ih => exact .cons (hat i) ih

universe u v

/-- Computed from the registers, and known by what the registers show. -/
structure Uniform {X : Type u} {V : Type v} (R : Reading ι X V) where
  run : Env ι → X
  reads : ∃ g : Values ι → V, ∀ w, (Reading.env.fn R) w run g

namespace Uniform
variable {X : Type u} {V : Type v} {R : Reading ι X V}

noncomputable def meaning (x : Uniform R) : Values ι → V := x.reads.choose

theorem spec (x : Uniform R) {w : World ι} {env : Env ι} {values : Values ι}
    (h : Reading.env w env values) : R w (x.run env) (x.meaning values) :=
  x.reads.choose_spec w w List.prefix_rfl env values h

end Uniform

/-- Plain data: in every world it stands for the same, and nothing else stands for that. -/
def Reading.Plain {X : Type u} {V : Type v} (R : Reading ι X V) : Prop :=
  ∃ e : X ≃ V, ∀ w x v, R w x v ↔ e x = v

section Plain
variable {X Y : Type u} {V U : Type v} {R : Reading ι X V} {S : Reading ι Y U}

theorem Reading.plain_same (X : Type u) : (Reading.same X : Reading ι X X).Plain :=
  ⟨.refl X, fun _ _ _ => Iff.rfl⟩

theorem Reading.Plain.prod (hR : R.Plain) (hS : S.Plain) : (R.prod S).Plain := by
  obtain ⟨e, he⟩ := hR
  obtain ⟨f, hf⟩ := hS
  exact ⟨e.prodCongr f, fun w x v => by simp [Reading.prod, he, hf, Prod.ext_iff]⟩

theorem Reading.Plain.list (hR : R.Plain) : R.list.Plain := by
  obtain ⟨e, he⟩ := hR
  refine ⟨Equiv.listEquivOfEquiv e, fun w x v => ?_⟩
  have hx : R w = fun x v => e x = v := by
    funext x v
    exact propext (he w x v)
  rw [Reading.list, hx]
  exact List.forall₂_map_left_iff.symm.trans (List.forall₂_eq_eq_eq ▸ Iff.rfl)

def Kind.Plain : Kind ι → Prop
  | .base _ => True
  | .nat => True
  | .option k => k.Plain
  | .pair a b => a.Plain ∧ b.Plain
  | .seq _ => False

theorem El.plain_reading {k : Kind ι} (h : k.Plain) : (El.reading k).Plain := by
  induction k with
  | base i => exact ⟨.refl _, fun w x v => ⟨And.right, fun h => ⟨trivial, h⟩⟩⟩
  | nat => exact ⟨.refl _, fun w x v => ⟨And.right, fun h => ⟨trivial, h⟩⟩⟩
  | option k ih =>
    obtain ⟨e, he⟩ := ih h
    refine ⟨e.optionCongr, fun w x v => ?_⟩
    have hv : ∀ y, El.Formed w k y ∧ El.value w k y = e y := fun y => (he w y _).2 rfl
    cases x with
    | none => exact ⟨And.right, fun h => ⟨fun _ hy => absurd hy.symm (Option.some_ne_none _), h⟩⟩
    | some y =>
      have hy : El.value w (.option k) (some y) = e.optionCongr (some y) := congrArg some (hv y).2
      exact hy ▸ ⟨And.right, fun h => ⟨fun _ hz => Option.some.inj hz ▸ (hv y).1, h⟩⟩
  | pair a b iha ihb =>
    obtain ⟨e, he⟩ := (iha h.1).prod (ihb h.2)
    refine ⟨e, fun w x v => Iff.trans ?_ (he w x v)⟩
    constructor
    · rintro ⟨⟨ha, hb⟩, rfl⟩
      exact ⟨⟨ha, rfl⟩, ⟨hb, rfl⟩⟩
    · rintro ⟨⟨ha, hva⟩, ⟨hb, hvb⟩⟩
      exact ⟨⟨ha, hb⟩, Prod.ext hva hvb⟩
  | seq k => exact h.elim

theorem El.plain_nat : (El.reading (ι := ι) .nat).Plain := El.plain_reading trivial

theorem El.plain_nats : (El.reading (ι := ι) .nat).list.Plain := El.plain_nat.list

end Plain

namespace Uniform
variable {X : Type u} {V : Type v} {R : Reading ι X V}

def plain (hR : R.Plain) (x : X) : Uniform R where
  run _ := x
  reads := by
    obtain ⟨e, he⟩ := hR
    exact ⟨fun _ => e x, fun w w' _ env vs _ => (he w' x _).2 rfl⟩

def fn {X Y V U : Type} {R : Reading ι X V} {S : Reading ι Y U} (hR : R.Plain) (hS : S.Plain)
    (f : Fn X Y) : Uniform (.noted R S) where
  run _ := f
  reads := by
    obtain ⟨e, he⟩ := hR
    obtain ⟨d, hd⟩ := hS
    refine ⟨fun _ v => d (f.apply (e.symm v)), fun w w' _ env vs _ w'' _ x v hx => ?_⟩
    have hv : e.symm v = x := by rw [← (he w'' x v).1 hx, e.symm_apply_apply]
    exact (hd w'' _ _).2 (congrArg (fun y => d (f.apply y)) hv.symm)

def held (k : Kind ι) (i : Nat) : Uniform (El.reading (.seq k)) where
  run env := env.seq k i
  reads := ⟨fun vs => vs.seq k i, fun _ _ _ _ _ h => seq_reads h k i⟩

end Uniform

/-- One use of a constructor or combinator. Inputs are registers, by number. -/
inductive Make : Kind ι → Type 1
  | empty {k : Kind ι} : Make k
  | one {k : Kind ι} (x : Uniform (El.reading k)) : Make k
  | cons {k : Kind ι} (head : Uniform (El.reading k)) (tail : Nat) : Make k
  | fromVec {k : Kind ι} (elements : Uniform (El.reading k).list) : Make k
  | generate (limit : Option Nat) : Make .nat
  | fromFn {k : Kind ι} (f : Uniform (.noted (.same Nat) (El.reading k))) : Make k
  | defer {k : Kind ι} (note : Option Note) (body : Uniform (Plan.reading k)) : Make k
  | concat {k : Kind ι} (a b : Nat) : Make k
  | concatAll {k : Kind ι} (parts : List Nat) : Make k
  | map {a b : Kind ι} (input : Nat) (f : Uniform (.noted (El.reading a) (El.reading b))) : Make b
  | filter {k : Kind ι} (input : Nat) (p : Uniform (.noted (El.reading k) (.same Bool))) : Make k
  | flatMap {a b : Kind ι} (input : Nat) (f : Uniform ((El.reading a).fn (Plan.reading b)))
      (note : El a → Option Note) : Make b
  | flatten {k : Kind ι} (input : Nat) : Make k
  | take {k : Kind ι} (input count : Nat) : Make k
  | takeWhile {k : Kind ι} (input : Nat) (p : Uniform (.noted (El.reading k) (.same Bool))) : Make k
  | skip {k : Kind ι} (input count : Nat) : Make k
  | scan {a b : Kind ι} {σ τ : Type} (R : Reading ι σ τ) (hR : R.Lasting) (input : Nat)
      (state : Uniform R)
      (step : Uniform (.noted (R.prod (El.reading a)) ((El.reading b).prod R))) : Make b
  | stateScan {a b : Kind ι} {σ τ : Type} (R : Reading ι σ τ) (hR : R.Lasting) (input : Nat)
      (state : Uniform R)
      (step : Uniform (.noted (R.prod (El.reading a)) ((El.reading b).list.prod R))) : Make b
  | inclusiveScan {a b : Kind ι} (input : Nat) (state : Uniform (El.reading b))
      (f : Uniform (.noted ((El.reading b).prod (El.reading a)) (El.reading b))) : Make b
  | exclusiveScan {a b : Kind ι} (input : Nat) (state : Uniform (El.reading b))
      (f : Uniform (.noted ((El.reading b).prod (El.reading a)) (El.reading b))) : Make b
  | terminated {k : Kind ι} (input : Nat) : Make (.option k)
  | entries {k : Kind ι} (input : Nat) : Make (.pair .nat k)

namespace Make

def plan : {k : Kind ι} → Make k → Env ι → Plan k
  | _, .empty, _ => .empty
  | _, .one x, env => .single (x.run env)
  | k, .cons head tail, env => .cons (head.run env) (.given (env.seq k tail))
  | _, .fromVec elements, env => .ofList (elements.run env)
  | _, .generate limit, _ => .given (Node.upTo limit)
  | _, .fromFn f, env => .given (.ofFn (f.run env))
  | _, .defer note body, env => .defer note fun _ => body.run env
  | k, .concat a b, env => .append (.given (env.seq k a)) (.given (env.seq k b))
  | k, .concatAll parts, env => .given (Node.concatAll (parts.map (env.seq k)))
  | _, .map (a := a) input f, env => .map (.given (env.seq a input)) (f.run env)
  | k, .filter input p, env => .filter (.given (env.seq k input)) (p.run env)
  | _, .flatMap (a := a) input f note, env => .flatMap (.given (env.seq a input)) (f.run env) note
  | k, .flatten input, env => .flatten (.given (env.seq (.seq k) input))
  | k, .take input count, env => .take (.given (env.seq k input)) count
  | k, .takeWhile input p, env => .takeWhile (.given (env.seq k input)) (p.run env)
  | k, .skip input count, env => .skip (.given (env.seq k input)) count
  | _, .scan (a := a) _ _ input state step, env =>
    .scan (.given (env.seq a input)) (state.run env) (step.run env)
  | _, .stateScan (a := a) _ _ input state step, env =>
    .stateScanned (.given (env.seq a input)) (state.run env) (step.run env)
  | _, .inclusiveScan (a := a) input state f, env =>
    .inclusiveScan (.given (env.seq a input)) (state.run env) (f.run env)
  | _, .exclusiveScan (a := a) input state f, env =>
    .exclusiveScan (.given (env.seq a input)) (state.run env) (f.run env)
  | _, .terminated (k := k) input, env => .terminated (.given (env.seq k input))
  | _, .entries (k := k) input, env => .entries (.given (env.seq k input))

def stateScanned {α β τ : Type} (g : τ × α → List β × τ) (t : τ) (d : Trail α) : Shown β :=
  .deferred (.flattened
    (Shown.deferred (.scanned (fun x => (Shown.ofList (g x).1, (g x).2)) t d)).trail)

theorem stateScanned_means {w : World ι} {a b : Kind ι} {σ τ : Type} {R : Reading ι σ τ}
    {input : Plan a} {T : Shown (Value a)} {state : σ} {t : τ}
    {step : Fn (σ × El a) (List (El b) × σ)} {g : τ × Value a → List (Value b) × τ}
    (hR : R.Lasting) (hT : input.Means w T) (ht : R w state t)
    (hg : (R.prod (El.reading a)).fn ((El.reading b).list.prod R) w step.apply g) :
    (input.stateScanned state step).Means w (stateScanned g t T.trail) :=
  ⟨_, ⟨T, τ, R, t, g, hR, hT, ht, hg, rfl⟩, rfl⟩

theorem reads_concatAll {w : World ι} {k : Kind ι} {parts : List (Sequence k)}
    {shown : List (Shown (Value k))} (h : List.Forall₂ (El.reading (.seq k) w) parts shown) :
    El.reading (.seq k) w (Node.concatAll parts) (shown.foldl Shown.concat .empty) := by
  have hfold : ∀ (a : Sequence k) (A : Shown (Value k)), El.reading (.seq k) w a A →
      El.reading (.seq k) w (parts.foldl Node.concat a) (shown.foldl Shown.concat A) := by
    induction h with
    | nil => exact fun _ _ ha => ha
    | cons hb _ ih => exact fun a A ha => ih _ _ (Plan.reading_concat ha hb)
  exact hfold _ _ ⟨.empty, rfl⟩

/-- Whatever a program makes is known by what its registers show. -/
theorem plan_reads {k : Kind ι} (m : Make k) :
    ∃ g : Values ι → Shown (Value k), ∀ w, (Reading.env.fn (Plan.reading k)) w m.plan g := by
  cases m with
  | empty => exact ⟨fun _ => .empty, fun w w' _ env vs _ => ⟨.empty, rfl⟩⟩
  | one x =>
    exact ⟨fun vs => .cons (x.meaning vs) .empty,
      fun w w' _ env vs h => Plan.reading_one (x.spec h) ⟨.empty, rfl⟩⟩
  | cons head tail =>
    exact ⟨fun vs => .cons (head.meaning vs) (vs.seq _ tail),
      fun w w' _ env vs h => ⟨_, _, head.spec h, seq_reads h _ tail, rfl⟩⟩
  | fromVec elements =>
    exact ⟨fun vs => .ofList (elements.meaning vs),
      fun w w' _ env vs h => Sequence.reading_ofList (elements.spec h)⟩
  | generate limit =>
    have hformed : ∀ w : World ι, Formed (k := .nat) w (Node.upTo limit) :=
      fun w => Node.formed_upTo limit fun _ => trivial
    exact ⟨fun _ => Sequence.shown (k := .nat) [] (Node.upTo limit), fun w w' _ env vs _ =>
      ⟨hformed w', (Formed.shown_eq List.nil_prefix (hformed [])).symm⟩⟩
  | fromFn f =>
    refine ⟨fun vs => ⟨"Generated", (Source.rule (.silent (f.meaning vs))).trail id none 0⟩,
      fun w w' _ env vs h => ?_⟩
    have hf : ∀ i, El.reading _ w' ((f.run env).apply i) (f.meaning vs i) :=
      fun i => f.spec h w' List.prefix_rfl i i rfl
    exact ⟨Node.formed_of_fn fun i => (hf i).1,
      congrArg (Shown.mk "Generated") (Source.trail_rule (fun i => (hf i).2) 0)⟩
  | defer note body =>
    exact ⟨fun vs => .deferred (body.meaning vs).trail,
      fun w w' _ env vs h => ⟨_, body.spec h, rfl⟩⟩
  | concat a b =>
    exact ⟨fun vs => (vs.seq _ a).concat (vs.seq _ b),
      fun w w' _ env vs h => ⟨_, _, seq_reads h _ a, seq_reads h _ b, rfl⟩⟩
  | concatAll parts =>
    refine ⟨fun vs => (parts.map (vs.seq _)).foldl Shown.concat .empty,
      fun w w' _ env vs h => reads_concatAll ?_⟩
    exact List.forall₂_map_left_iff.2 (List.forall₂_map_right_iff.2
      (List.forall₂_same.2 fun i _ => seq_reads h _ i))
  | map input f =>
    exact ⟨fun vs => .deferred (.mapped (f.meaning vs) (vs.seq _ input).trail),
      fun w w' _ env vs h => ⟨_, _, seq_reads h _ input, f.spec h, rfl⟩⟩
  | @filter k input p =>
    refine ⟨fun vs => .deferred (.flattened (Shown.deferred (.mapped
        (fun v => if p.meaning vs v then Shown.cons v .empty else .empty)
        (vs.seq k input).trail)).trail),
      fun w w' _ env vs h => ⟨_, ⟨_, _, seq_reads h k input, fun w₁ hw x v hx => ?_, rfl⟩, rfl⟩⟩
    have hp : (p.run env).apply x = p.meaning vs v := p.spec h w₁ hw x v hx
    simp only [hp]
    split
    · exact Plan.reading_one hx ⟨.empty, rfl⟩
    · exact ⟨.empty, rfl⟩
  | flatMap input f note =>
    exact ⟨fun vs => .deferred (.flattened
        (Shown.deferred (.mapped (f.meaning vs) (vs.seq _ input).trail)).trail),
      fun w w' _ env vs h => ⟨_, ⟨_, _, seq_reads h _ input, f.spec h, rfl⟩, rfl⟩⟩
  | flatten input =>
    exact ⟨fun vs => .deferred (.flattened (vs.seq (.seq _) input).trail),
      fun w w' _ env vs h => ⟨_, seq_reads h _ input, rfl⟩⟩
  | take input count =>
    exact ⟨fun vs => if count = 0 then .empty else .deferred (.taken count (vs.seq _ input).trail),
      fun w w' _ env vs h => ⟨_, seq_reads h _ input, rfl⟩⟩
  | takeWhile input p =>
    exact ⟨fun vs => .deferred (.takenWhile (p.meaning vs) (vs.seq _ input).trail),
      fun w w' _ env vs h => ⟨_, _, seq_reads h _ input, p.spec h, rfl⟩⟩
  | skip input count =>
    exact ⟨fun vs => .deferred ((vs.seq _ input).trail.drop count),
      fun w w' _ env vs h => ⟨_, seq_reads h _ input, rfl⟩⟩
  | scan R hR input state step =>
    exact ⟨fun vs => .deferred (.scanned (step.meaning vs) (state.meaning vs) (vs.seq _ input).trail),
      fun w w' _ env vs h =>
        ⟨_, _, R, _, _, hR, seq_reads h _ input, state.spec h, step.spec h, rfl⟩⟩
  | stateScan R hR input state step =>
    exact ⟨fun vs => stateScanned (step.meaning vs) (state.meaning vs) (vs.seq _ input).trail,
      fun w w' _ env vs h =>
        stateScanned_means hR (seq_reads h _ input) (state.spec h) (step.spec h)⟩
  | @inclusiveScan a _ input state f =>
    refine ⟨fun vs => stateScanned (fun x => ([f.meaning vs x], f.meaning vs x))
      (state.meaning vs) (vs.seq a input).trail, fun w w' _ env vs h => ?_⟩
    refine stateScanned_means (El.lasting_reading k) (seq_reads h a input) (state.spec h) ?_
    intro w₁ hw x v hx
    have hf := f.spec h w₁ hw x v hx
    exact ⟨.cons hf .nil, hf⟩
  | @exclusiveScan a _ input state f =>
    refine ⟨fun vs => stateScanned (fun x => ([x.1], f.meaning vs x))
      (state.meaning vs) (vs.seq a input).trail, fun w w' _ env vs h => ?_⟩
    refine stateScanned_means (El.lasting_reading k) (seq_reads h a input) (state.spec h) ?_
    intro w₁ hw x v hx
    exact ⟨.cons hx.1 .nil, f.spec h w₁ hw x v hx⟩
  | terminated input =>
    exact ⟨fun vs => (vs.seq _ input).terminated,
      fun w w' _ env vs h => Plan.terminated_means (seq_reads h _ input)⟩
  | @entries k input =>
    refine ⟨fun vs => .deferred (.scanned (fun x : Nat × Value k => ((x.1, x.2), x.1 + 1)) 0
      (vs.seq k input).trail), fun w w' _ env vs h => ?_⟩
    refine ⟨_, Nat, .same Nat, 0, _, Reading.lasting_same Nat, seq_reads h k input, rfl,
      fun w₁ hw x v hx => ?_, rfl⟩
    obtain ⟨i, x⟩ := x
    obtain ⟨j, v⟩ := v
    obtain ⟨rfl, hx, rfl⟩ : i = j ∧ El.reading k w₁ x v := hx
    exact ⟨⟨⟨trivial, hx⟩, rfl⟩, rfl⟩

/-- What is made by a constructor or combinator, as the product of a deferred part. -/
def producer {k : Kind ι} (m : Make k) : Uniform (Plan.reading k) where
  run := m.plan
  reads := m.plan_reads

/-- A recipe for every element of a plain kind is uniform too, so that it may be used by `flatMap`. -/
def each {a k : Kind ι} (ha : a.Plain) (m : El a → Make k) :
    Uniform ((El.reading a).fn (Plan.reading k)) where
  run env x := (m x).plan env
  reads := by
    obtain ⟨e, he⟩ := El.plain_reading ha
    choose g hg using fun x => (m x).plan_reads
    refine ⟨fun vs v => g (e.symm v) vs, fun w w' hw env vs h w'' hw' x v hx => ?_⟩
    have hv : e.symm v = x := by rw [← (he w'' x v).1 hx, e.symm_apply_apply]
    simp only [hv]
    exact hg x w w'' (hw.trans hw') env vs (Reading.lasting_env hw' h)

end Make

end MemoSequence
