import MemoSequence.Proofs.Prefixes
set_option autoImplicit false

namespace MemoSequence
open Stream' (Seq WSeq)
open Stream'.WSeq (think)
open Sequence (Formed elements trail)

section WeakSequences
variable {α β : Type} {d e : WSeq α}

instance transEquiv : @Trans (WSeq α) (WSeq α) (WSeq α) WSeq.Equiv WSeq.Equiv WSeq.Equiv := ⟨WSeq.Equiv.trans⟩

theorem bind_cons (x : α) (d : WSeq α) (f : α → WSeq β) :
    (WSeq.cons x d).bind f = think ((f x).append (d.bind f)) := by
  rw [WSeq.bind, WSeq.map_cons, WSeq.join_cons]
  rfl

theorem bind_think (d : WSeq α) (f : α → WSeq β) : (think d).bind f = think (d.bind f) := by
  rw [WSeq.bind, WSeq.map_think, WSeq.join_think]
  rfl

theorem bind_nil (f : α → WSeq β) : (WSeq.nil : WSeq α).bind f = .nil := by
  rw [WSeq.bind, WSeq.map_nil, WSeq.join_nil]

theorem append_congr {d' e' : WSeq α} (hd : d ~ʷ d') (he : e ~ʷ e') : d.append e ~ʷ d'.append e' :=
  WSeq.liftRel_append Eq hd he

theorem inOrder_append (a b : List (WSeq α)) : inOrder (a ++ b) = (inOrder a).append (inOrder b) := by
  induction a with
  | nil => exact (WSeq.nil_append _).symm
  | cons d rest ih =>
    have hcons : inOrder (d :: rest ++ b) = d.append (inOrder (rest ++ b)) := rfl
    rw [hcons, ih, ← WSeq.append_assoc]
    rfl

theorem bind_ofList_append (before : List α) (d : WSeq α) (f : α → WSeq β) :
    ((WSeq.ofList before).append d).bind f ~ʷ (inOrder (before.map f)).append (d.bind f) := by
  induction before with
  | nil =>
    rw [WSeq.ofList_nil, WSeq.nil_append]
    exact (WSeq.nil_append (d.bind f)).symm ▸ WSeq.Equiv.refl _
  | cons x rest ih =>
    have hcons : (inOrder ((x :: rest).map f)).append (d.bind f) =
        (f x).append ((inOrder (rest.map f)).append (d.bind f)) := WSeq.append_assoc ..
    rw [WSeq.ofList_cons, WSeq.cons_append, bind_cons, hcons]
    exact (WSeq.think_equiv _).trans (append_congr (.refl _) ih)

theorem bind_ofList (values : List α) (f : α → WSeq β) :
    (WSeq.ofList values).bind f ~ʷ inOrder (values.map f) := by
  have h := bind_ofList_append values .nil f
  rwa [WSeq.append_nil, bind_nil, WSeq.append_nil] at h

end WeakSequences

section Filters
variable {α : Type} {q : α → Prop} [DecidablePred q] {x : α} {d e : WSeq α}

theorem filter_nil : (WSeq.nil : WSeq α).filter q = .nil :=
  Seq.destruct_eq_none (by rw [WSeq.filter, WSeq.filterMap, Seq.corec_eq]; rfl)

theorem filter_think : (think d).filter q = think (d.filter q) :=
  Seq.destruct_eq_cons (by
    rw [WSeq.filter, WSeq.filterMap, Seq.corec_eq, WSeq.seq_destruct_think]
    rfl)

theorem filter_cons : (WSeq.cons x d).filter q =
    if q x then .cons x (d.filter q) else think (d.filter q) := by
  have hhead : Seq.destruct ((WSeq.cons x d).filter q) =
      some (if q x then some x else none, d.filter q) := by
    rw [WSeq.filter, WSeq.filterMap, Seq.corec_eq, WSeq.seq_destruct_cons]
    rfl
  split
  · next h =>
    rw [if_pos h] at hhead
    exact Seq.destruct_eq_cons hhead
  · next h =>
    rw [if_neg h] at hhead
    exact Seq.destruct_eq_cons hhead

theorem bind_kept (d : WSeq α) :
    (d.bind fun x => if q x then WSeq.ret x else .nil) ~ʷ d.filter q := by
  refine equiv_of_alongside (C := fun a b => ∃ d : WSeq α,
    a = (d.bind fun x => if q x then WSeq.ret x else .nil) ∧ b = d.filter q) ?_ ⟨d, rfl, rfl⟩
  rintro _ _ ⟨d, rfl, rfl⟩
  induction d using WSeq.recOn with
  | nil =>
    rw [bind_nil, filter_nil]
    exact .nil 0 0
  | cons x d =>
    -- The bind has a tick before each of its parts, so only an element that is dropped costs both one.
    rw [bind_cons, filter_cons]
    by_cases h : q x
    · rw [if_pos h, if_pos h, WSeq.ret, WSeq.ofList_cons, WSeq.ofList_nil, WSeq.cons_append,
        WSeq.nil_append]
      exact .cons 1 0 x ⟨d, rfl, rfl⟩
    · rw [if_neg h, if_neg h, WSeq.nil_append]
      exact .think 0 0 ⟨d, rfl, rfl⟩
  | think d =>
    rw [bind_think, filter_think]
    exact .think 0 0 ⟨d, rfl, rfl⟩

theorem filter_congr (h : d ~ʷ e) : d.filter q ~ʷ e.filter q :=
  (bind_kept d).symm.trans ((WSeq.bind_congr h fun _ => .refl _).trans (bind_kept e))

theorem filter_filter (p p' : α → Bool) (d : WSeq α) :
    (d.filter fun x => p x).filter (fun x => p' x) ~ʷ d.filter fun x => p x && p' x := by
  refine equiv_of_alongside (C := fun a b => ∃ d : WSeq α,
    a = (d.filter fun x => p x).filter (fun x => p' x) ∧ b = d.filter fun x => p x && p' x) ?_
    ⟨d, rfl, rfl⟩
  rintro _ _ ⟨d, rfl, rfl⟩
  induction d using WSeq.recOn with
  | nil =>
    rw [filter_nil, filter_nil, filter_nil]
    exact .nil 0 0
  | cons x d =>
    rw [filter_cons, filter_cons]
    cases h : p x with
    | false =>
      simp only [Bool.false_eq_true, if_false, Bool.false_and, filter_think]
      exact .think 0 0 ⟨d, rfl, rfl⟩
    | true =>
      simp only [if_true, Bool.true_and, filter_cons]
      cases h' : p' x with
      | false => exact .think 0 0 ⟨d, rfl, rfl⟩
      | true => exact .cons 0 0 x ⟨d, rfl, rfl⟩
  | think d =>
    rw [filter_think, filter_think, filter_think]
    exact .think 0 0 ⟨d, rfl, rfl⟩

end Filters

namespace Trail
variable {α β : Type}

@[simp] theorem elements_nil : elements (.nil : Trail α) = .nil := rfl

@[simp] theorem elements_think (d : Trail α) : elements (think d) = think d.elements :=
  WSeq.map_think _ d

@[simp] theorem elements_cons (p : α × String) (d : Trail α) :
    elements (.cons p d) = .cons p.1 d.elements := WSeq.map_cons _ p d

theorem elements_mapped (g : α → β) (d : Trail α) : (mapped g d).elements ~ʷ d.elements.map g := by
  refine equiv_of_alongside (C := fun a b => ∃ (j : ℕ) (d : Trail α),
    a = think^[j] (mapped g d).elements ∧ b = d.elements.map g) ?_ ⟨0, d, rfl, rfl⟩
  rintro _ _ ⟨j, d, rfl, rfl⟩
  induction d using WSeq.recOn with
  | nil =>
    rw [mapped_nil, elements_nil, elements_nil, WSeq.map_nil]
    exact .nil j 0
  | cons p d =>
    -- What follows an element is deferred: a tick that the other side does not have.
    rw [mapped_cons, elements_cons, elements_think, elements_cons, WSeq.map_cons]
    exact .cons j 0 (g p.1) ⟨1, d, rfl, rfl⟩
  | think d =>
    rw [(strict_mapped g).eq, elements_think, elements_think, WSeq.map_think,
      ← Function.iterate_succ_apply]
    exact .think j 0 ⟨0, d, rfl, rfl⟩

theorem append_of_endless {d : Trail α} (h : ¬ d.Finite) (e : WSeq α) :
    d.elements.append e ~ʷ d.elements := by
  refine equiv_of_alongside (C := fun a b => ∃ d : Trail α,
    ¬ d.Finite ∧ a = d.elements.append e ∧ b = d.elements) ?_ ⟨d, h, rfl, rfl⟩
  rintro _ _ ⟨d, h, rfl, rfl⟩
  induction d using WSeq.recOn with
  | nil => exact absurd .nil h
  | cons p d =>
    rw [elements_cons, WSeq.cons_append]
    exact .cons 0 0 p.1 ⟨d, mt (.cons p) h, rfl, rfl⟩
  | think d =>
    rw [elements_think, WSeq.think_append]
    exact .think 0 0 ⟨d, mt .think h, rfl, rfl⟩

end Trail

section Shown
variable {α β γ : Type}

def Shown.elements (S : Shown α) : WSeq α := S.trail.elements

theorem Trail.elements_flattened (d : Trail (Shown α)) :
    (flattened d).elements ~ʷ d.elements.bind Shown.elements := by
  have hmapped : (mapped id d).elements ~ʷ d.elements := by
    have h := elements_mapped id d
    rwa [WSeq.map_id] at h
  have hjoin : (flattened d).elements = (mapped id d).elements.bind Shown.elements := by
    rw [elements, flattened, WSeq.map_join, ← WSeq.map_comp, WSeq.bind, elements, ← WSeq.map_comp]
    congr 2
    funext p
    exact elements_inside p.1.trail
  exact hjoin ▸ WSeq.bind_congr hmapped fun _ => .refl _

theorem Shown.elements_deferred (d : Trail α) : (deferred d).elements ~ʷ d.elements := by
  rw [Shown.elements, deferred, Trail.elements_think]
  exact WSeq.think_equiv _

theorem Shown.elements_flatMapped (g : α → Shown β) (S : Shown α) :
    (S.flatMapped g).elements ~ʷ S.elements.bind fun v => (g v).elements := by
  have hmapped : (Shown.deferred (.mapped g S.trail)).elements ~ʷ S.elements.map g :=
    (Shown.elements_deferred _).trans (Trail.elements_mapped g S.trail)
  have hbind : (S.elements.map g).bind Shown.elements = S.elements.bind fun v => (g v).elements := by
    rw [WSeq.bind, ← WSeq.map_comp]
    rfl
  refine (Shown.elements_deferred _).trans ((Trail.elements_flattened _).trans ?_)
  exact hbind ▸ WSeq.bind_congr hmapped fun _ => .refl _

theorem Shown.elements_flatMapped_flatMapped (g : α → Shown β) (h : β → Shown γ) (S : Shown α) :
    ((S.flatMapped g).flatMapped h).elements ~ʷ (S.flatMapped fun v => (g v).flatMapped h).elements := by
  calc ((S.flatMapped g).flatMapped h).elements
    _ ~ʷ (S.flatMapped g).elements.bind fun u => (h u).elements := Shown.elements_flatMapped h _
    _ ~ʷ (S.elements.bind fun v => (g v).elements).bind fun u => (h u).elements :=
      WSeq.bind_congr (Shown.elements_flatMapped g S) fun _ => .refl _
    _ ~ʷ S.elements.bind fun v => (g v).elements.bind fun u => (h u).elements := WSeq.bind_assoc _ _ _
    _ ~ʷ S.elements.bind fun v => ((g v).flatMapped h).elements :=
      WSeq.bind_congr (.refl _) fun v => (Shown.elements_flatMapped h (g v)).symm
    _ ~ʷ (S.flatMapped fun v => (g v).flatMapped h).elements := (Shown.elements_flatMapped _ S).symm

end Shown

variable {ι : Type} [Basis ι] {a b k : Kind ι} {st : Store ι} {w : World ι}

def Shown.kept {α : Type} (q : α → Bool) (v : α) : Shown α := if q v then .cons v .empty else .empty

theorem Shown.elements_filtered {α : Type} (q : α → Bool) (S : Shown α) :
    (S.flatMapped (Shown.kept q)).elements ~ʷ S.elements.filter fun v => q v := by
  have hkept : (fun v => (Shown.kept q v).elements) =
      fun v => if q v = true then WSeq.ret v else .nil := by
    funext v
    rw [Shown.kept]
    split
    · rw [WSeq.ret, WSeq.ofList_cons, WSeq.ofList_nil]
      exact Trail.elements_cons (v, "Empty") .nil
    · rfl
  have h := Shown.elements_flatMapped (Shown.kept q) S
  rw [hkept] at h
  exact h.trans (bind_kept _)

theorem Plan.filter_means {input : Plan k} {T : Shown (Value k)} (hT : input.Means w T)
    {p : Fn (El k) Bool} {q : Value k → Bool} (hp : (El.reading k).fn (.same Bool) w p.apply q) :
    (input.filter p).Means w (T.flatMapped (Shown.kept q)) := by
  refine Plan.flatMap_means hT _ fun w' hw x v hx => ?_
  have hq : p.apply x = q v := hp w' hw x v hx
  simp only [hq, Shown.kept]
  split
  · exact Plan.reading_one hx ⟨.empty, rfl⟩
  · exact ⟨.empty, rfl⟩

namespace Sequence

theorem elements_concatAll {parts : List (Sequence k)} (h : ∀ s ∈ parts, Formed w s) :
    elements w (Node.concatAll parts) = inOrder (parts.map (elements w)) := by
  have hfold : ∀ s : Sequence k, elements w (parts.foldl Node.concat s) =
      (elements w s).append (inOrder (parts.map (elements w))) := by
    induction parts with
    | nil => exact fun s => (WSeq.append_nil _).symm
    | cons t rest ih =>
      intro s
      obtain ⟨ht, hrest⟩ := List.forall_mem_cons.1 h
      rw [List.foldl_cons, ih hrest, elements_concat w s ht, WSeq.append_assoc]
      rfl
  rw [Node.concatAll, hfold]
  exact WSeq.nil_append _

/-- At most `count` elements from the front of all inner sequences put together, after the outer sequence
has been collected. -/
def joinedFirsts (outer : Sequence (.seq k)) (count fuel : Nat) : Run ι (List (El k)) := do
  let inners ← toList fuel outer
  (Plan.given (Node.concatAll inners)).firsts count fuel

theorem joined_of_toList (hst : st.Means w) {outer : Sequence (.seq k)} (hs : Formed w outer)
    {fuel : ℕ} {inners : List (Sequence k)} {st₁ : Store ι}
    (h : toList fuel outer st = .ok (inners, st₁)) :
    ∃ w₁, st.Leads w st₁ w₁ ∧ Formed w₁ (Node.concatAll inners) ∧
      elements w₁ (Node.concatAll inners) ~ʷ (elements w outer).bind Shown.elements := by
  obtain ⟨shown, w₁, hlists, hl, hread⟩ := lists_of_toList hst hs h
  obtain ⟨hformed, hvalues⟩ := El.list_reading_iff.1 hread
  have hshown : inners.map (elements w₁) = shown.map Shown.elements := by
    rw [← hvalues, List.map_map]
    rfl
  refine ⟨w₁, hl, (Make.reads_concatAll hread).1, ?_⟩
  calc elements w₁ (Node.concatAll inners)
    _ = inOrder (shown.map Shown.elements) := by rw [elements_concatAll hformed, hshown]
    _ ~ʷ (WSeq.ofList shown).bind Shown.elements := (bind_ofList _ _).symm
    _ ~ʷ (elements w outer).bind Shown.elements :=
      WSeq.bind_congr hlists.equiv_ofList.symm fun _ => .refl _

theorem joinedFirsts_adequate (hst : st.Means w) {outer : Sequence (.seq k)} (hs : Formed w outer)
    (hfinite : ∃ fuel inners st₁, toList fuel outer st = .ok (inners, st₁)) (count : ℕ) :
    Adequate (outer.joinedFirsts count) st w (El.reading k).list
      (Starts ((elements w outer).bind Shown.elements) count) := by
  have hjoined : ∀ {fuel : ℕ} {inners : List (Sequence k)} {st₁ : Store ι},
      toList fuel outer st = .ok (inners, st₁) → ∃ w₁, st.Leads w st₁ w₁ ∧
        (Plan.given (Node.concatAll inners)).HasElements st₁ w₁
          ((elements w outer).bind Shown.elements) := by
    intro fuel inners st₁ h
    obtain ⟨w₁, hl, hformed, helements⟩ := joined_of_toList hst hs h
    have hmeans : (Plan.given (Node.concatAll inners)).Means w₁ (shown w₁ (Node.concatAll inners)) :=
      ⟨hformed, rfl⟩
    exact ⟨w₁, hl, hmeans.hasElements hl.means helements⟩
  constructor
  · intro fuel xs st₂ h
    obtain ⟨inners, st₁, hlist, h⟩ := Run.bind_eq_ok.1 h
    obtain ⟨w₁, hl, hhas⟩ := hjoined hlist
    obtain ⟨w₂, values, hl₂, hvalues⟩ := (hhas.firsts count).sound h
    exact ⟨w₂, values, hl.trans hl₂, hvalues⟩
  · intro hquiet values hvalues
    -- It returned with some fuel, so its elements can be listed, and any fuel that is enough will do.
    obtain ⟨fuel, inners, st₁, hlist⟩ := hfinite
    obtain ⟨shown, -, hlists, -, -⟩ := lists_of_toList hst hs hlist
    obtain ⟨inners, st₁, -, hgives, -, -⟩ := hlists.collects hst hquiet hs
    obtain ⟨n, hn⟩ := hgives.run
    obtain ⟨w₁, hl, hhas⟩ := hjoined hn
    obtain ⟨xs, st₂, w₂, hfirsts, hl₂, hread⟩ :=
      (hhas.firsts count).gives (hl.quiet hquiet) hvalues
    exact ⟨xs, st₂, w₂, hgives.bind hfirsts, hl.trans hl₂, hread⟩

end Sequence

/-- What flattening, replacing elements by sequences, and filtering come to; `k` is the kind of the
results. -/
structure Flattens (st : Store ι) (w : World ι) (k : Kind ι) : Prop where
  ordered : ∀ {outer : Sequence (.seq k)}, Formed w outer →
    (Plan.flatten (.given outer)).HasElements st w ((elements w outer).bind Shown.elements)
  endless : ∀ {outer : Sequence (.seq k)} {before : List (Shown (Value k))} {S : Shown (Value k)}
    {rest : WSeq (Shown (Value k))}, Formed w outer →
    elements w outer ~ʷ (WSeq.ofList before).append (.cons S rest) → ¬ S.trail.Finite →
    (Plan.flatten (.given outer)).HasElements st w
      (inOrder ((before ++ [S]).map Shown.elements))
  concatAll : ∀ {outer : Sequence (.seq k)}, Formed w outer →
    (∃ fuel inners st₁, Sequence.toList fuel outer st = .ok (inners, st₁)) → ∀ count,
      Agree ((Plan.flatten (.given outer)).firsts count) (outer.joinedFirsts count) st w
        (El.reading k).list
  assoc : ∀ {a b : Kind ι} {s : Sequence a} {f : El a → Plan b} {g : El b → Plan k}
    {φ : Value a → Shown (Value b)} {ψ : Value b → Shown (Value k)} (m m' : El a → Option Note)
    (n n' : El b → Option Note), Formed w s → (El.reading a).fn (Plan.reading b) w f φ →
    (El.reading b).fn (Plan.reading k) w g ψ → ∀ count,
      Agree ((((Plan.given s).flatMap f m).flatMap g n).firsts count)
        (((Plan.given s).flatMap (fun x => (f x).flatMap g n') m').firsts count) st w (El.reading k).list
  filter : ∀ {s : Sequence k} {p : Fn (El k) Bool} {q : Value k → Bool}, Formed w s →
    (El.reading k).fn (.same Bool) w p.apply q →
    (Plan.filter (.given s) p).HasElements st w ((elements w s).filter fun v => q v)
  filters : ∀ {s : Sequence k} {p p' : Fn (El k) Bool} {q q' : Value k → Bool}
    (note : El k → Option Note), Formed w s → (El.reading k).fn (.same Bool) w p.apply q →
    (El.reading k).fn (.same Bool) w p'.apply q' → ∀ count,
      Agree ((((Plan.given s).filter p).filter p').firsts count)
        (((Plan.given s).filter ⟨fun x => p.apply x && p'.apply x, note⟩).firsts count) st w
        (El.reading k).list

theorem bind_of_endless {d : WSeq (Shown (Value k))} {before : List (Shown (Value k))}
    {S : Shown (Value k)} {rest : WSeq (Shown (Value k))}
    (hd : d ~ʷ (WSeq.ofList before).append (.cons S rest)) (hS : ¬ S.trail.Finite) :
    d.bind Shown.elements ~ʷ inOrder ((before ++ [S]).map Shown.elements) := by
  have hlast : inOrder [S.elements] = S.elements := WSeq.append_nil _
  have hrest : (WSeq.cons S rest).bind Shown.elements ~ʷ S.elements := by
    rw [bind_cons]
    exact (WSeq.think_equiv _).trans (Trail.append_of_endless hS _)
  rw [List.map_append, inOrder_append, List.map_singleton, hlast]
  calc d.bind Shown.elements
    _ ~ʷ ((WSeq.ofList before).append (.cons S rest)).bind Shown.elements :=
      WSeq.bind_congr hd fun _ => .refl _
    _ ~ʷ (inOrder (before.map Shown.elements)).append ((WSeq.cons S rest).bind Shown.elements) :=
      bind_ofList_append _ _ _
    _ ~ʷ (inOrder (before.map Shown.elements)).append S.elements := append_congr (.refl _) hrest

theorem flatten_hasElements (hst : st.Means w) {outer : Sequence (.seq k)} (hs : Formed w outer) :
    (Plan.flatten (.given outer)).HasElements st w ((elements w outer).bind Shown.elements) := by
  have hmeans : (Plan.flatten (.given outer)).Means w (.deferred (.flattened (trail w outer))) :=
    ⟨_, ⟨hs, rfl⟩, rfl⟩
  exact hmeans.hasElements hst
    ((Shown.elements_deferred _).trans (Trail.elements_flattened (trail w outer)))

theorem filter_hasElements (hst : st.Means w) {s : Sequence k} (hs : Formed w s) {p : Fn (El k) Bool}
    {q : Value k → Bool} (hp : (El.reading k).fn (.same Bool) w p.apply q) :
    (Plan.filter (.given s) p).HasElements st w ((elements w s).filter fun v => q v) := by
  have hgiven : (Plan.given s).Means w (Sequence.shown w s) := ⟨hs, rfl⟩
  exact (Plan.filter_means hgiven hp).hasElements hst (Shown.elements_filtered q _)

theorem flatMap_agree (hst : st.Means w) (hquiet : ∀ id, ¬ st.Running id) {s : Sequence a}
    (hs : Formed w s) {f : El a → Plan b} {g : El b → Plan k} {φ : Value a → Shown (Value b)}
    {ψ : Value b → Shown (Value k)} (m m' : El a → Option Note) (n n' : El b → Option Note)
    (hf : (El.reading a).fn (Plan.reading b) w f φ) (hg : (El.reading b).fn (Plan.reading k) w g ψ)
    (count : ℕ) :
    Agree ((((Plan.given s).flatMap f m).flatMap g n).firsts count)
      (((Plan.given s).flatMap (fun x => (f x).flatMap g n') m').firsts count) st w
      (El.reading k).list := by
  have hgiven : (Plan.given s).Means w (Sequence.shown w s) := ⟨hs, rfl⟩
  have htwice : (((Plan.given s).flatMap f m).flatMap g n).Means w
      (((Sequence.shown w s).flatMapped φ).flatMapped ψ) :=
    Plan.flatMap_means (Plan.flatMap_means hgiven m hf) n hg
  have hinner : (El.reading a).fn (Plan.reading k) w (fun x => (f x).flatMap g n')
      fun v => (φ v).flatMapped ψ := fun w' hw x v hx =>
    Plan.flatMap_means (hf w' hw x v hx) n' fun w'' hw' => hg w'' (hw.trans hw')
  have honce : ((Plan.given s).flatMap (fun x => (f x).flatMap g n') m').Means w
      ((Sequence.shown w s).flatMapped fun v => (φ v).flatMapped ψ) :=
    Plan.flatMap_means hgiven m' hinner
  have helements := Shown.elements_flatMapped_flatMapped φ ψ (Sequence.shown w s)
  exact ((htwice.hasElements hst helements).firsts count).agree
    ((honce.hasElements hst (.refl _)).firsts count) hquiet

theorem filter_agree (hst : st.Means w) (hquiet : ∀ id, ¬ st.Running id) {s : Sequence k}
    (hs : Formed w s) {p p' : Fn (El k) Bool} {q q' : Value k → Bool} (note : El k → Option Note)
    (hp : (El.reading k).fn (.same Bool) w p.apply q)
    (hp' : (El.reading k).fn (.same Bool) w p'.apply q') (count : ℕ) :
    Agree ((((Plan.given s).filter p).filter p').firsts count)
      (((Plan.given s).filter ⟨fun x => p.apply x && p'.apply x, note⟩).firsts count) st w
      (El.reading k).list := by
  have hgiven : (Plan.given s).Means w (Sequence.shown w s) := ⟨hs, rfl⟩
  have hboth : (El.reading k).fn (.same Bool) w (fun x => p.apply x && p'.apply x)
      fun v => q v && q' v := fun w' hw x v hx =>
    congrArg₂ (· && ·) (hp w' hw x v hx) (hp' w' hw x v hx)
  have htwice := Plan.filter_means (Plan.filter_means hgiven hp) hp'
  have helements : (((Sequence.shown w s).flatMapped (Shown.kept q)).flatMapped
      (Shown.kept q')).elements ~ʷ (elements w s).filter fun v => q v && q' v :=
    (Shown.elements_filtered q' _).trans
      ((filter_congr (Shown.elements_filtered q _)).trans (filter_filter q q' _))
  exact ((htwice.hasElements hst helements).firsts count).agree
    ((filter_hasElements hst hs hboth).firsts count) hquiet

theorem flattens (hst : st.Means w) (hquiet : ∀ id, ¬ st.Running id) (k : Kind ι) : Flattens st w k where
  ordered hs := flatten_hasElements hst hs
  endless hs hd hS := (flatten_hasElements hst hs).congr (bind_of_endless hd hS)
  concatAll hs hfinite count :=
    ((flatten_hasElements hst hs).firsts count).agree
      (Sequence.joinedFirsts_adequate hst hs hfinite count) hquiet
  assoc m m' n n' hs hf hg count := flatMap_agree hst hquiet hs m m' n n' hf hg count
  filter hs hp := filter_hasElements hst hs hp
  filters note hs hp hp' count := filter_agree hst hquiet hs note hp hp' count

/-- After every run of a program flattening is concatenation in order, replacing elements by sequences is
associative, and filters keep what satisfies them. -/
theorem flattening_lawful {program : List (Step ι)} {fuel : ℕ} {env : Env ι} {st : Store ι}
    (h : Program.run fuel program [] Store.empty = .ok (env, st)) :
    ∃ w : World ι, st.Means w ∧ (∀ id, ¬ st.Running id) ∧ (∀ r ∈ env, El.Formed w r.1 r.2) ∧
      ∀ k, Flattens st w k := by
  obtain ⟨vs, w, -, hkept⟩ := Program.run_keeps program kept_empty h
  exact ⟨w, hkept.means, hkept.quiet, formed_of_reads hkept.reads, flattens hkept.means hkept.quiet⟩

def nesting : List (Step Atom) :=
  [.make (k := .nat) (.generate (some 2)) [],
   .make (k := .nat) .empty [],
   .make (k := .nat) (.generate none) [],
   .make (k := .seq .nat) (.one (.held .nat 0)) [2],
   .make (k := .seq .nat) (.cons (.held .nat 0) 1) [1, 3],
   .make (k := .seq .nat) (.cons (.held .nat 0) 1) [0, 4],
   .make (k := .nat) (.flatten 0) [5],
   .make (k := .nat) (.take 0 5) [6],
   .next .nat 6]

theorem nesting_lawful :
    Program.Answers (k := .nat) nesting .toVec 7 [] [0, 1, 0, 1, 2] ∧
      ∃ env st, Program.run 10 nesting [] Store.empty = .ok (env, st) ∧
        ∃ w : World Atom, st.Means w ∧ (∀ id, ¬ st.Running id) ∧ (∀ r ∈ env, El.Formed w r.1 r.2) ∧
          ∀ k, Flattens st w k := by
  have hrun := (rfl : Program.run 10 nesting [] Store.empty = .ok (_, _))
  exact ⟨⟨20, by decide +kernel⟩, _, _, hrun, flattening_lawful hrun⟩

end MemoSequence
