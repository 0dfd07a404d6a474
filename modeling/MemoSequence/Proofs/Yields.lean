import MemoSequence.Joined
import MemoSequence.Proofs.Lists
set_option autoImplicit false

namespace MemoSequence
open Stream'.WSeq (think)

namespace Shown
variable {α : Type} {A B : Shown α} {d : Trail α} {values more : List α}

structure Yields (S : Shown α) (values : List α) : Prop where
  lists : Lists S.trail values
  empty : S.form = "Empty" → values = []

theorem yields_empty : (empty : Shown α).Yields [] := ⟨.nil 0, fun _ => rfl⟩

theorem Yields.cons (x : α) (h : A.Yields values) : (A.cons x).Yields (x :: values) :=
  ⟨h.lists.cons_front x A.form, fun hform => absurd hform (by simp [Shown.cons])⟩

theorem yields_deferred (h : Lists d values) : (deferred d).Yields values :=
  ⟨h.tick, fun hform => absurd hform (by simp [deferred])⟩

theorem yields_ofList (values : List α) : (ofList values).Yields values := by
  refine ⟨.listed values, fun hform => ?_⟩
  by_contra hne
  simp [ofList, hne] at hform

theorem Yields.concat (ha : A.Yields values) (hb : B.Yields more) :
    (A.concat B).Yields (values ++ more) := by
  unfold Shown.concat
  by_cases eb : B.form = "Empty"
  · rw [if_pos eb, hb.empty eb, List.append_nil]
    exact ha
  · rw [if_neg eb]
    by_cases ea : A.form = "Empty"
    · rw [if_pos ea, ha.empty ea, List.nil_append]
      exact hb
    · rw [if_neg ea]
      exact ⟨ha.lists.chained hb.lists, fun hform => absurd hform (by simp)⟩

end Shown

namespace Plan
variable {ι : Type} [Basis ι] {k a b : Kind ι} {w w' : World ι}

def Yields (p : Plan k) (w : World ι) (values : List (Value k)) : Prop :=
  ∃ S, p.Means w S ∧ S.Yields values

theorem yields_ofList {i : ι} (elements : List (Basis.Carrier i)) :
    (Plan.ofList elements : Plan (.base i)).Yields w elements :=
  ⟨.ofList elements, Plan.ofList_means elements w, Shown.yields_ofList elements⟩

theorem yields_single {i : ι} (x : Basis.Carrier i) :
    (Plan.single x : Plan (.base i)).Yields w [x] :=
  ⟨Shown.cons x .empty, reading_one ⟨trivial, rfl⟩ ⟨.empty, rfl⟩, .cons x Shown.yields_empty⟩

section Operations
variable {p q : Plan k} {values more : List (Value k)}

theorem Yields.append (hp : p.Yields w values) (hq : q.Yields w more) :
    (Plan.append p q).Yields w (values ++ more) := by
  obtain ⟨A, hA, hvalues⟩ := hp
  obtain ⟨B, hB, hmore⟩ := hq
  exact ⟨A.concat B, ⟨A, B, hA, hB, rfl⟩, hvalues.concat hmore⟩

theorem Yields.take (h : p.Yields w values) (count : ℕ) :
    (Plan.take p count).Yields w (values.take count) := by
  obtain ⟨T, hT, hvalues⟩ := h
  cases count with
  | zero => exact ⟨.empty, ⟨T, hT, rfl⟩, Shown.yields_empty⟩
  | succ count =>
    exact ⟨.deferred (.taken (count + 1) T.trail), ⟨T, hT, rfl⟩,
      Shown.yields_deferred (hvalues.lists.taken count)⟩

theorem Yields.scan {input : Plan a} {values : List (Value a)} (h : input.Yields w values)
    {σ : Type} {state : σ} {step : Fn (σ × El a) (El b × σ)} {g : σ × Value a → Value b × σ}
    (hg : ((Reading.same σ).prod (El.reading a)).fn ((El.reading b).prod (.same σ)) w
      step.apply g) :
    (Plan.scan input state step).Yields w (scanValues g state values) := by
  obtain ⟨T, hT, hvalues⟩ := h
  exact ⟨.deferred (.scanned g state T.trail),
    ⟨T, σ, .same σ, state, g, Reading.lasting_same σ, hT, rfl, hg, rfl⟩,
    Shown.yields_deferred (hvalues.lists.scanned g state)⟩

theorem Yields.flatten {outer : Plan (.seq k)} {shown : List (Shown (Value k))}
    {parts : List (List (Value k))} (h : outer.Yields w shown)
    (hparts : List.Forall₂ Shown.Yields shown parts) :
    (Plan.flatten outer).Yields w parts.flatten := by
  obtain ⟨T, hT, hvalues⟩ := h
  have hinner : List.Forall₂ (fun S values => Lists S.trail values) shown parts :=
    hparts.imp fun _ _ hS => hS.lists
  exact ⟨.deferred (.flattened T.trail), ⟨T, hT, rfl⟩,
    Shown.yields_deferred (hvalues.lists.flattened hinner)⟩

end Operations

section Each
variable {plans : List (Unit → Plan k)} {shown : List (Shown (Value k))}
  {parts : List (List (Value k))}

theorem yields_upTo (n : ℕ) :
    (Plan.given (Node.upTo (some n)) : Plan (.nat : Kind ι)).Yields w (List.range' 0 n) := by
  have hlists : Lists ((Source.rule (.silent id)).trail id (some n) 0) ((List.range' 0 n).map id) :=
    .numbered (fun i _ => ⟨i, rfl, rfl⟩) (Nat.zero_add n)
  rw [List.map_id] at hlists
  refine ⟨_, ⟨Node.formed_upTo _ fun _ => trivial, rfl⟩, ?_⟩
  cases n with
  | zero => exact Shown.yields_empty
  | succ n =>
    have hne : ¬ Node.form (Node.upTo (some (n + 1))) = "Empty" := by simp [Node.upTo, Node.form]
    exact ⟨hlists, fun hform => absurd hform hne⟩

theorem exists_shown
    (h : List.Forall₂ (fun plan values => (plan ()).Yields w values) plans parts) :
    ∃ shown : List (Shown (Value k)),
      List.Forall₂ (fun plan S => (plan ()).Means w S) plans shown ∧
        List.Forall₂ Shown.Yields shown parts := by
  induction h with
  | nil => exact ⟨[], .nil, .nil⟩
  | cons hplan _ ih =>
    obtain ⟨S, hS, hvalues⟩ := hplan
    obtain ⟨shown, hmeans, hyields⟩ := ih
    exact ⟨S :: shown, .cons hS hmeans, .cons hvalues hyields⟩

theorem getElem?_means (h : List.Forall₂ (fun plan S => (plan ()).Means w S) plans shown) (i : ℕ) :
    (match plans[i]? with
      | some plan => plan ()
      | none => Plan.empty).Means w (shown[i]?.getD .empty) := by
  induction h generalizing i with
  | nil => exact ⟨.empty, rfl⟩
  | cons hS _ ih =>
    cases i with
    | zero => exact hS
    | succ i => exact ih i

theorem yields_each
    (h : List.Forall₂ (fun plan values => (plan ()).Yields w values) plans parts) :
    ∃ shown, (Plan.each plans.toArray).Yields w shown ∧ List.Forall₂ Shown.Yields shown parts := by
  obtain ⟨shown, hmeans, hyields⟩ := exists_shown h
  obtain ⟨T, hT, hnumbers⟩ := yields_upTo (w := w) plans.toArray.size
  have hshown : (List.range' 0 plans.toArray.size).map (fun i => shown[i]?.getD .empty) = shown := by
    refine List.ext_getElem (by simp [hmeans.length_eq]) fun i _ hi => ?_
    simp [hi]
  have hlists := hnumbers.lists.mapped fun i : ℕ => shown[i]?.getD .empty
  rw [hshown] at hlists
  refine ⟨shown, ⟨.deferred _, ⟨T, _, hT, ?_, rfl⟩, Shown.yields_deferred hlists⟩, hyields⟩
  intro w' hw i v hi
  obtain ⟨-, rfl⟩ := hi
  have hget := (getElem?_means hmeans i).mono hw
  rwa [← List.getElem?_toArray] at hget

end Each

theorem Yields.collects {i : ι} {p : Plan (.base i)} {values : List (Basis.Carrier i)}
    (h : p.Yields [] values) : p.Collects values := by
  obtain ⟨S, hS, hvalues⟩ := h
  exact hS.collects hvalues.lists

end Plan

section Joined
variable {α β : Type}

def afterFirst (f : α → α) : List α → List α
  | [] => []
  | first :: rest => first :: rest.map f

theorem scanValues_afterFirst (f : α → α) (values : List α) :
    scanValues (fun x : Bool × α => (if x.1 then x.2 else f x.2, false)) true values =
      afterFirst f values := by
  have hrest : ∀ rest : List α,
      scanValues (fun x : Bool × α => (if x.1 then x.2 else f x.2, false)) false rest =
        rest.map f := by
    intro rest
    induction rest with
    | nil => rfl
    | cons x rest ih => exact congrArg _ ih
  cases values with
  | nil => rfl
  | cons first rest => exact congrArg _ (hrest rest)

theorem forall₂_afterFirst {R : α → β → Prop} {f : α → α} {g : β → β} {as : List α} {bs : List β}
    (h : List.Forall₂ R as bs) (hfg : ∀ {a b}, R a b → R (f a) (g b)) :
    List.Forall₂ R (afterFirst f as) (afterFirst g bs) := by
  cases h with
  | nil => exact .nil
  | cons hfirst hrest =>
    have hmap := hrest.imp fun _ _ hr => hfg hr
    exact .cons hfirst (List.forall₂_map_left_iff.2 (List.forall₂_map_right_iff.2 hmap))

theorem flatten_afterFirst (separator : List α) (parts : List (List α)) :
    (afterFirst (separator ++ ·) parts).flatten = separator.intercalate parts := by
  cases parts with
  | nil => rfl
  | cons first rest =>
    induction rest generalizing first with
    | nil => simp [afterFirst]
    | cons next rest ih =>
      have hnext := ih next
      simp only [afterFirst, List.map_cons, List.flatten_cons, List.append_assoc] at hnext ⊢
      rw [hnext, List.intercalate_cons_cons, List.append_assoc]

theorem Plan.Yields.separatedBy {w : World Atom} {input : Plan .text} {texts : List String}
    (h : input.Yields w texts) (separator : String) :
    (Plan.separatedBy separator input).Yields w (afterFirst (separator ++ ·) texts) := by
  rw [← scanValues_afterFirst]
  refine h.scan ?_
  rintro w' - ⟨first, piece⟩ ⟨first', piece'⟩ ⟨rfl, -, rfl⟩
  exact ⟨⟨trivial, rfl⟩, rfl⟩

/-- The texts that a plan yields are joined in their order, each but the first with the separator. -/
theorem Plan.Yields.join_gives {p : Plan .text} {texts : List String} (h : p.Yields [] texts)
    (separator : String) :
    ∃ st, Gives (fun fuel => do Sequence.join separator fuel (← Run.build p)) Store.empty
      (String.join (afterFirst (separator ++ ·) texts)) st := by
  have hquiet := Store.not_running_empty (ι := Atom) true #[]
  obtain ⟨S, hS, hvalues⟩ := h
  obtain ⟨w, hl, hs⟩ := Plan.build_means hS (Store.means_empty true #[])
  have hgiven : (Plan.given (p.build Store.empty).1).Yields w texts := ⟨S, hs, hvalues⟩
  obtain ⟨T, hT, hpieces⟩ := hgiven.separatedBy separator
  obtain ⟨w', hl', hformed, hshown⟩ := Plan.build_means hT hl.means
  have hdrains := (congrArg Shown.trail hshown) ▸ hpieces.lists.drains (· ++ ·) ""
  have hstep : (Reading.same String).step w'
      (fun joined (piece : El .text) => do
        return .yield (← Run.call (.silent fun p => p.1 ++ p.2) (joined, piece)))
      (fun joined piece => .yield (joined ++ piece)) := by
    rintro w'' - joined joined' piece piece' rfl ⟨-, rfl⟩
    exact ⟨_, Run.notes_call_bind (Run.notes_pure _), rfl⟩
  obtain ⟨joined, st, w'', hgives, -, rfl⟩ := traverse_returns (Reading.lasting_same String) hstep
    hl'.means (hl'.quiet (hl.quiet hquiet)) hformed rfl hdrains
  exact ⟨st, (gives_of_eq rfl).bind ((gives_of_eq rfl).bind hgives)⟩

end Joined

end MemoSequence
