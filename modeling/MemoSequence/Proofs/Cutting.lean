import Mathlib.Data.ENat.Lattice
import MemoSequence.Proofs.Elementwise
set_option autoImplicit false

namespace MemoSequence
open Stream' (Seq WSeq)
open Stream'.WSeq (think)
open Sequence (Formed elements trail)

section WeakSequences
variable {α : Type} {d e : WSeq α} {values : List α} {x : α} {n : ℕ}

theorem take_zero (d : WSeq α) : d.take 0 = .nil :=
  Seq.destruct_eq_none (by rw [WSeq.take, Seq.corec_eq]; rfl)

theorem take_nil (n : ℕ) : (WSeq.nil : WSeq α).take n = .nil := by
  cases n with
  | zero => exact take_zero _
  | succ n => exact Seq.destruct_eq_none (by rw [WSeq.take, Seq.corec_eq]; rfl)

theorem take_think (n : ℕ) (d : WSeq α) : (think d).take (n + 1) = think (d.take (n + 1)) :=
  Seq.destruct_eq_cons (by
    rw [WSeq.take, Seq.corec_eq]
    simp only [WSeq.seq_destruct_think]
    rfl)

theorem take_cons (n : ℕ) (x : α) (d : WSeq α) : (WSeq.cons x d).take (n + 1) = .cons x (d.take n) :=
  Seq.destruct_eq_cons (by
    rw [WSeq.take, Seq.corec_eq]
    simp only [WSeq.seq_destruct_cons]
    rfl)

theorem strict_take (n : ℕ) : Strict fun d : WSeq α => d.take (n + 1) := take_think n

theorem nil_or_cons_or_frontless (d : WSeq α) :
    d ~ʷ .nil ∨ (∃ x e, d ~ʷ .cons x e) ∨ Frontless d := by
  obtain ⟨n, _ | ⟨x, e⟩, rfl⟩ | h := arrives_or_frontless d
  · exact .inl (ticks_equiv n _)
  · exact .inr (.inl ⟨x, e, ticks_equiv n _⟩)
  · exact .inr (.inr h)

theorem take_congr (h : d ~ʷ e) (n : ℕ) : d.take n ~ʷ e.take n := by
  induction n generalizing d e with
  | zero => rw [take_zero, take_zero]
  | succ n ih =>
    obtain ⟨i, _ | ⟨x, d'⟩, rfl⟩ | hd := arrives_or_frontless d
    · obtain ⟨j, rfl⟩ := equiv_nil_iff.1 (h.symm.trans (ticks_equiv i _))
      rw [(strict_take n).ticks, (strict_take n).ticks]
      exact (ticks_equiv i _).trans (ticks_equiv j _).symm
    · obtain ⟨j, e', rfl, he⟩ := equiv_cons_iff.1 (h.symm.trans (ticks_equiv i _))
      rw [(strict_take n).ticks, (strict_take n).ticks]
      refine (ticks_equiv i _).trans (.trans ?_ (ticks_equiv j _).symm)
      simp only [front, take_cons]
      exact WSeq.cons_congr x (ih he.symm)
    · exact equiv_of_frontless ((strict_take n).frontless hd) ((strict_take n).frontless (hd.congr h))

theorem take_of_nil (h : d ~ʷ .nil) (n : ℕ) : d.take n ~ʷ .nil := by
  have hn := take_congr h n
  rwa [take_nil] at hn

theorem take_of_cons (h : d ~ʷ .cons x e) (n : ℕ) : d.take (n + 1) ~ʷ .cons x (e.take n) := by
  have hn := take_congr h (n + 1)
  rwa [take_cons] at hn

theorem drop_of_nil (h : d ~ʷ .nil) (n : ℕ) : d.drop n ~ʷ .nil := by
  have hn := WSeq.dropn_congr h n
  rwa [WSeq.dropn_nil] at hn

theorem drop_of_cons (h : d ~ʷ .cons x e) (n : ℕ) : d.drop (n + 1) ~ʷ e.drop n := by
  have hn := WSeq.dropn_congr h (n + 1)
  rwa [WSeq.dropn_cons] at hn

theorem take_append_drop (n : ℕ) (d : WSeq α) : (d.take n).append (d.drop n) ~ʷ d := by
  induction n generalizing d with
  | zero =>
    rw [take_zero, WSeq.nil_append]
    exact .refl d
  | succ n ih =>
    obtain hnil | ⟨x, e, hcons⟩ | hd := nil_or_cons_or_frontless d
    · have h := append_congr (take_of_nil hnil (n + 1)) (drop_of_nil hnil (n + 1))
      rw [WSeq.nil_append] at h
      exact h.trans hnil.symm
    · have h := append_congr (take_of_cons hcons n) (drop_of_cons hcons n)
      rw [WSeq.cons_append] at h
      exact h.trans ((WSeq.cons_congr x (ih e)).trans hcons.symm)
    · exact equiv_of_frontless ((strict_append _).frontless ((strict_take n).frontless hd)) hd

theorem take_take (m n : ℕ) (d : WSeq α) : (d.take m).take n ~ʷ d.take (min m n) := by
  induction m generalizing n d with
  | zero =>
    rw [take_zero, take_nil, Nat.zero_min, take_zero]
  | succ m ih =>
    cases n with
    | zero => rw [take_zero, Nat.min_zero, take_zero]
    | succ n =>
      rw [Nat.succ_min_succ]
      obtain hnil | ⟨x, e, hcons⟩ | hd := nil_or_cons_or_frontless d
      · exact (take_of_nil (take_of_nil hnil _) _).trans (take_of_nil hnil _).symm
      · have h := take_of_cons (take_of_cons hcons m) n
        exact h.trans ((WSeq.cons_congr x (ih n e)).trans (take_of_cons hcons _).symm)
      · exact equiv_of_frontless ((strict_take n).frontless ((strict_take m).frontless hd))
          ((strict_take _).frontless hd)

theorem drop_ofList_append (values : List α) (d : WSeq α) :
    ((WSeq.ofList values).append d).drop values.length = d := by
  induction values with
  | nil => rw [WSeq.ofList_nil, WSeq.nil_append]; rfl
  | cons x rest ih => rw [WSeq.ofList_cons, WSeq.cons_append, List.length_cons, WSeq.dropn_cons, ih]

theorem ofList_injective {values more : List α} (h : WSeq.ofList values ~ʷ .ofList more) :
    values = more := by
  induction values generalizing more with
  | nil =>
    cases more with
    | nil => rfl
    | cons y more =>
      rw [WSeq.ofList_cons, WSeq.ofList_nil] at h
      exact absurd h.symm (not_cons_equiv_nil y _)
  | cons x values ih =>
    cases more with
    | nil =>
      rw [WSeq.ofList_cons, WSeq.ofList_nil] at h
      exact absurd h (not_cons_equiv_nil x _)
    | cons y more =>
      rw [WSeq.ofList_cons, WSeq.ofList_cons] at h
      obtain ⟨rfl, hrest⟩ := (WSeq.liftRel_cons _ _ _ _ _).1 h
      rw [ih hrest]

theorem mem_ofList {x : α} : x ∈ WSeq.ofList values ↔ x ∈ values := by
  induction values with
  | nil => exact iff_of_false (WSeq.notMem_nil x) List.not_mem_nil
  | cons y rest ih => rw [WSeq.ofList_cons, WSeq.mem_cons_iff, ih, List.mem_cons]

theorem starts_append (values : List α) (e : WSeq α) :
    Starts ((WSeq.ofList values).append e) values.length values := by
  induction values with
  | nil => exact .enough _
  | cons x rest ih =>
    rw [WSeq.ofList_cons, WSeq.cons_append]
    exact .more (.refl _) ih

theorem starts_ofList (values : List α) (n : ℕ) : Starts (WSeq.ofList values) n (values.take n) := by
  induction values generalizing n with
  | nil =>
    rw [List.take_nil]
    exact .ended n (.refl _)
  | cons x rest ih =>
    cases n with
    | zero => exact .enough _
    | succ n =>
      rw [WSeq.ofList_cons, List.take_succ_cons]
      exact .more (.refl _) (ih n)

theorem HasLength.starts {c : ℕ∞} (h : HasLength d c) (n : ℕ) :
    ∃ values, Starts d n values ∧ (values.length : ℕ∞) = min (n : ℕ∞) c := by
  cases h with
  | endless h =>
    obtain ⟨values, rest, rfl, hd⟩ := h n
    exact ⟨values, (starts_append values rest).congr hd.symm, (min_top_right _).symm⟩
  | finite all hd =>
    refine ⟨all.take n, (starts_ofList all n).congr hd.symm, ?_⟩
    rw [List.length_take]
    exact Nat.mono_cast.map_min

end WeakSequences

section Prefixes
variable {α : Type} {q : α → Bool} {d e : WSeq α} {values : List α}

/-- Up to ticks `e` is the longest prefix of `d` all of whose elements satisfy the test. -/
structure LongestPrefix (q : α → Bool) (d e : WSeq α) : Prop where
  satisfied : ∀ v ∈ e, q v = true
  longest : e ~ʷ d ∨ ∃ (values : List α) (x : α) (rest : WSeq α), e ~ʷ .ofList values ∧
    d ~ʷ (WSeq.ofList values).append (.cons x rest) ∧ q x = false

def Fails (q : α → Bool) (d : WSeq α) (values : List α) (x : α) : Prop :=
  (∀ v ∈ values, q v = true) ∧ q x = false ∧ ∃ rest, d ~ʷ (WSeq.ofList values).append (.cons x rest)

theorem Fails.think {x : α} (h : Fails q d values x) : Fails q (think d) values x := by
  obtain ⟨hvalues, hx, rest, hd⟩ := h
  exact ⟨hvalues, hx, rest, (WSeq.think_equiv d).trans hd⟩

theorem Fails.cons {v x : α} (h : Fails q d values x) (hv : q v = true) :
    Fails q (.cons v d) (v :: values) x := by
  obtain ⟨hvalues, hx, rest, hd⟩ := h
  refine ⟨List.forall_mem_cons.2 ⟨hv, hvalues⟩, hx, rest, ?_⟩
  rw [WSeq.ofList_cons, WSeq.cons_append]
  exact WSeq.cons_congr v hd

theorem fails_cons {x : α} (hx : q x = false) (d : WSeq α) : Fails q (.cons x d) [] x := by
  refine ⟨List.forall_mem_nil _, hx, d, ?_⟩
  rw [WSeq.ofList_nil, WSeq.nil_append]

theorem LongestPrefix.behind (h : LongestPrefix q d e) (he : e ~ʷ .ofList values) :
    d.drop values.length ~ʷ .nil ∨
      ∃ x rest, d.drop values.length ~ʷ .cons x rest ∧ q x = false := by
  obtain hall | ⟨more, x, rest, hmore, hd, hx⟩ := h.longest
  · left
    have hdrop := WSeq.dropn_congr (hall.symm.trans he) values.length
    have hend := drop_ofList_append values .nil
    rw [WSeq.append_nil] at hend
    rwa [hend] at hdrop
  · right
    obtain rfl := ofList_injective (he.symm.trans hmore)
    have hdrop := WSeq.dropn_congr hd values.length
    rw [drop_ofList_append] at hdrop
    exact ⟨x, rest, hdrop, hx⟩

end Prefixes

namespace Shown
variable {α : Type} {A B : Shown α}

theorem form_deferred_ne {d : Trail α} : ¬ (deferred d).form = "Empty" := by
  simp [deferred]

theorem elements_ofList (values : List α) : (Shown.ofList values).elements = .ofList values := by
  have hlisted : Trail.elements (Trail.listed values) = .ofList values := by
    induction values with
    | nil => rfl
    | cons x rest ih => rw [Trail.listed, Trail.elements_cons, ih, WSeq.ofList_cons]
  exact hlisted

theorem elements_concat (hA : A.form = "Empty" → A.trail = .nil) (hB : B.form = "Empty" → B.trail = .nil) :
    (A.concat B).elements = A.elements.append B.elements := by
  unfold concat
  split
  · next h =>
    have hnil : B.elements = .nil := congrArg Trail.elements (hB h)
    rw [hnil, WSeq.append_nil]
  · split
    · next h =>
      have hnil : A.elements = .nil := congrArg Trail.elements (hA h)
      rw [hnil, WSeq.nil_append]
    · exact Trail.elements_chained A.trail [B.trail]

end Shown

namespace Trail
variable {α : Type} {q : α → Bool} {d : Trail α}

theorem elements_taken (n : ℕ) (d : Trail α) : (Shown.taken n d).elements ~ʷ d.elements.take n := by
  induction n generalizing d with
  | zero =>
    rw [take_zero]
    exact .refl _
  | succ n ih =>
    have hmap : Strict (elements : Trail α → WSeq α) := strict_map Prod.fst
    refine (Shown.elements_deferred _).trans ?_
    obtain ⟨i, _ | ⟨⟨x, form⟩, rest⟩, rfl⟩ | hd := arrives_or_frontless d
    · rw [(strict_taken _).ticks, elements_ticks, elements_ticks, (strict_take n).ticks]
      simp only [front, taken_nil, elements_nil, take_nil]
      exact .refl _
    · rw [(strict_taken _).ticks, elements_ticks, elements_ticks, (strict_take n).ticks]
      simp only [front, taken_cons_eq, elements_cons, take_cons]
      refine (ticks_equiv i _).trans (.trans ?_ (ticks_equiv i _).symm)
      exact WSeq.cons_congr x (ih rest)
    · exact equiv_of_frontless (hmap.frontless ((strict_taken _).frontless hd))
        ((strict_take n).frontless (hmap.frontless hd))

theorem elements_drop (n : ℕ) (d : Trail α) : elements (d.drop n) ~ʷ d.elements.drop n := by
  induction n generalizing d with
  | zero => exact .refl _
  | succ n ih =>
    have hmap : Strict (elements : Trail α → WSeq α) := strict_map Prod.fst
    obtain ⟨i, _ | ⟨p, rest⟩, rfl⟩ | hd := arrives_or_frontless d
    · rw [(strict_drop _).ticks, elements_ticks, elements_ticks, (strict_drop _).ticks]
      simp only [front, WSeq.dropn_nil, elements_nil]
      exact .refl _
    · rw [(strict_drop _).ticks, elements_ticks, elements_ticks, (strict_drop _).ticks]
      simp only [front, WSeq.dropn_cons, elements_cons]
      exact (ticks_equiv i _).trans ((ih rest).trans (ticks_equiv i _).symm)
    · exact equiv_of_frontless (hmap.frontless ((strict_drop _).frontless hd))
        ((strict_drop _).frontless (hmap.frontless hd))

theorem elements_takenWhile_cons (n : ℕ) (x : α) (form : String) (d : Trail α) :
    (takenWhile q (think^[n] (.cons (x, form) d))).elements ~ʷ
      if q x then .cons x (takenWhile q d).elements else .nil := by
  rw [(strict_takenWhile q).ticks, elements_ticks, takenWhile_cons]
  refine (ticks_equiv n _).trans ?_
  split
  · rw [elements_cons, elements_think]
    exact WSeq.cons_congr x (WSeq.think_equiv _)
  · exact .refl _

theorem takenWhile_satisfied {v : α} (h : v ∈ (takenWhile q d).elements) : q v = true := by
  -- By induction on where the element stands; what is left is again what is taken of a trail.
  refine WSeq.mem_rec_on (C := fun e => ∀ d : Trail α, e ~ʷ (takenWhile q d).elements → q v = true) h
    (fun x e ih d he => ?_) (fun e ih d he => ih d ((WSeq.think_equiv e).symm.trans he)) d (.refl _)
  obtain ⟨n, _ | ⟨⟨y, form⟩, rest⟩, rfl⟩ | hd := arrives_or_frontless d
  · have hnil : (takenWhile q (think^[n] (.nil : Trail α))).elements ~ʷ .nil := by
      rw [(strict_takenWhile q).ticks, takenWhile_nil]
      exact elements_ticks_nil n
    exact absurd (he.trans hnil) (not_cons_equiv_nil x e)
  · have hcons := he.trans (elements_takenWhile_cons n y form rest)
    split at hcons
    · next hy =>
      obtain ⟨rfl, hrest⟩ := (WSeq.liftRel_cons _ _ _ _ _).1 hcons
      obtain rfl | hv := ih
      · exact hy
      · exact hv rest hrest
    · exact absurd hcons (not_cons_equiv_nil x e)
  · have hmap : Strict (elements : Trail α → WSeq α) := strict_map Prod.fst
    have hcons := (hmap.frontless ((strict_takenWhile q).frontless hd)).congr he.symm
    exact absurd ⟨some (x, e), rfl⟩ (hcons 0)

theorem takenWhile_of_fails {values : List α} {x : α} (h : Fails q d.elements values x) :
    (takenWhile q d).elements ~ʷ .ofList values := by
  obtain ⟨hvalues, hx, rest, hd⟩ := h
  induction values generalizing d with
  | nil =>
    rw [WSeq.ofList_nil, WSeq.nil_append] at hd
    obtain ⟨n, form, more, rfl, -⟩ := elements_equiv_cons.1 hd
    have hcut := elements_takenWhile_cons (q := q) n x form more
    rwa [if_neg (by simp [hx])] at hcut
  | cons v values ih =>
    obtain ⟨hv, hvalues⟩ := List.forall_mem_cons.1 hvalues
    rw [WSeq.ofList_cons, WSeq.cons_append] at hd
    obtain ⟨n, form, more, rfl, hmore⟩ := elements_equiv_cons.1 hd
    have hcut := elements_takenWhile_cons (q := q) n v form more
    rw [if_pos hv] at hcut
    rw [WSeq.ofList_cons]
    exact hcut.trans (WSeq.cons_congr v (ih hvalues hmore))

theorem takenWhile_of_not_fails (h : ∀ values x, ¬ Fails q d.elements values x) :
    (takenWhile q d).elements ~ʷ d.elements := by
  refine equiv_of_alongside (C := fun a b => ∃ (j : ℕ) (d : Trail α),
    (∀ values x, ¬ Fails q d.elements values x) ∧ a = think^[j] (takenWhile q d).elements ∧
      b = d.elements) ?_ ⟨0, d, h, rfl, rfl⟩
  rintro _ _ ⟨j, d, h, rfl, rfl⟩
  induction d using WSeq.recOn with
  | nil =>
    rw [takenWhile_nil, elements_nil]
    exact .nil j 0
  | cons p d =>
    obtain ⟨x, form⟩ := p
    rw [elements_cons] at h
    cases hx : q x with
    | false => exact absurd (fails_cons hx _) (h [] x)
    | true =>
      rw [takenWhile_cons, if_pos hx, elements_cons, elements_cons, elements_think]
      exact .cons j 0 x ⟨1, d, fun values y hy => h (x :: values) y (hy.cons hx), rfl, rfl⟩
  | think d =>
    rw [elements_think] at h
    rw [(strict_takenWhile q).eq, elements_think, elements_think, ← Function.iterate_succ_apply]
    exact .think j 0 ⟨0, d, fun values y hy => h values y hy.think, rfl, rfl⟩

theorem longestPrefix_takenWhile (q : α → Bool) (d : Trail α) :
    LongestPrefix q d.elements (takenWhile q d).elements where
  satisfied _ := takenWhile_satisfied
  longest := by
    by_cases h : ∃ values x, Fails q d.elements values x
    · obtain ⟨values, x, hfails⟩ := h
      have hcut := takenWhile_of_fails hfails
      obtain ⟨-, hx, rest, hd⟩ := hfails
      exact .inr ⟨values, x, rest, hcut, hd, hx⟩
    · exact .inl (takenWhile_of_not_fails fun values x hfails => h ⟨values, x, hfails⟩)

end Trail

variable {ι : Type} [Basis ι] {k : Kind ι} {st : Store ι} {w : World ι} {s : Sequence k}
  {p : Fn (El k) Bool} {q : Value k → Bool}

namespace Plan
variable {plan : Plan k} {S : Shown (Value k)}

def head (plan : Plan k) (fuel : Nat) : Run ι (Option (El k)) := do
  Sequence.first? fuel (← Run.build plan)

theorem head_of_nil (hplan : plan.Means w S) (hst : st.Means w) (hquiet : ∀ id, ¬ st.Running id)
    (h : S.elements ~ʷ .nil) : ∃ st', Gives plan.head st none st' := by
  obtain ⟨w₁, hl, hs, hshown⟩ := build_means hplan hst
  obtain ⟨n, hd⟩ := Trail.elements_equiv_nil.1 h
  obtain ⟨st₂, w₂, hgives, -⟩ :=
    next_gives_none hl.means (hl.quiet hquiet) hs ((congrArg Shown.trail hshown).trans hd)
  exact ⟨st₂, (gives_of_eq rfl).bind (hgives.bind (gives_of_eq rfl))⟩

theorem head_of_cons (hplan : plan.Means w S) (hst : st.Means w) (hquiet : ∀ id, ¬ st.Running id)
    {v : Value k} {rest : WSeq (Value k)} (h : S.elements ~ʷ .cons v rest) :
    ∃ x st' w', Gives plan.head st (some x) st' ∧ st.Leads w st' w' ∧ El.reading k w' x v := by
  obtain ⟨w₁, hl, hs, hshown⟩ := build_means hplan hst
  obtain ⟨n, form, d, hd, -⟩ := Trail.elements_equiv_cons.1 h
  obtain ⟨x, tail, st₂, w₂, hgives, hl₂, hx, -⟩ :=
    next_gives_some hl.means (hl.quiet hquiet) hs ((congrArg Shown.trail hshown).trans hd)
  exact ⟨x, st₂, w₂, (gives_of_eq rfl).bind (hgives.bind (gives_of_eq rfl)), hl.trans hl₂, hx⟩

end Plan

/-- What taking and skipping come to; `k` is the kind of the elements. -/
structure Divides (st : Store ι) (w : World ι) (k : Kind ι) : Prop where
  rejoined : ∀ {s : Sequence k}, Formed w s → ∀ n,
    (Plan.append (.take (.given s) n) (.skip (.given s) n)).SameElements st w (.given s) st w
  taken : ∀ {s : Sequence k}, Formed w s → ∀ n,
    (Plan.take (.given s) n).HasElements st w ((elements w s).take n)
  length : ∀ {s : Sequence k} {c : ℕ∞}, Formed w s → HasLength (elements w s) c → ∀ n,
    ∃ xs st', Gives (Plan.take (.given s) n).listed st xs st' ∧ (xs.length : ℕ∞) = min (n : ℕ∞) c
  takes : ∀ {s : Sequence k}, Formed w s → ∀ m n,
    (Plan.take (.take (.given s) m) n).SameElements st w (.take (.given s) (min m n)) st w
  skipped : ∀ {s : Sequence k}, Formed w s → ∀ n,
    (Plan.skip (.given s) n).HasElements st w ((elements w s).drop n)
  skips : ∀ {s : Sequence k}, Formed w s → ∀ m n,
    (Plan.skip (.skip (.given s) m) n).SameElements st w (.skip (.given s) (m + n)) st w
  takeWhile : ∀ {s : Sequence k} {p : Fn (El k) Bool} {q : Value k → Bool}, Formed w s →
    (El.reading k).fn (.same Bool) w p.apply q →
    ∃ d, (Plan.takeWhile (.given s) p).HasElements st w d ∧ LongestPrefix q (elements w s) d
  behind : ∀ {s : Sequence k} {p : Fn (El k) Bool} {q : Value k → Bool}, Formed w s →
    (El.reading k).fn (.same Bool) w p.apply q → ∀ {fuel : ℕ} {xs : List (El k)} {st₁ : Store ι},
    (Plan.takeWhile (.given s) p).listed fuel st = .ok (xs, st₁) →
      (∀ x ∈ xs, p.apply x = true) ∧
      ∃ answer st₂, Gives (Plan.skip (.given s) xs.length).head st₁ answer st₂ ∧
        ∀ x, answer = some x → p.apply x = false

section Plans
variable {input : Plan k} {S : Shown (Value k)}

theorem take_means (h : input.Means w S) (n : ℕ) :
    (Plan.take input n).Means w (.taken n S.trail) := ⟨S, h, rfl⟩

theorem skip_means (h : input.Means w S) (n : ℕ) :
    (Plan.skip input n).Means w (.deferred (S.trail.drop n)) := ⟨S, h, rfl⟩

theorem given_means (hs : Formed w s) : (Plan.given s).Means w (Sequence.shown w s) := ⟨hs, rfl⟩

theorem elements_skipped (S : Shown (Value k)) (n : ℕ) :
    (Shown.deferred (S.trail.drop n)).elements ~ʷ S.elements.drop n :=
  (Shown.elements_deferred _).trans (Trail.elements_drop n S.trail)

theorem elements_rejoined (S : Shown (Value k)) (n : ℕ) :
    ((Shown.taken n S.trail).concat (.deferred (S.trail.drop n))).elements ~ʷ S.elements := by
  have hempty : (Shown.taken n S.trail).form = "Empty" → (Shown.taken n S.trail).trail = .nil := by
    rw [Shown.taken]
    split
    · exact fun _ => rfl
    · exact fun h => absurd h Shown.form_deferred_ne
  calc ((Shown.taken n S.trail).concat (.deferred (S.trail.drop n))).elements
    _ = (Shown.taken n S.trail).elements.append (Shown.deferred (S.trail.drop n)).elements :=
      Shown.elements_concat hempty fun h => absurd h Shown.form_deferred_ne
    _ ~ʷ (S.elements.take n).append (S.elements.drop n) :=
      append_congr (Trail.elements_taken n S.trail) (elements_skipped S n)
    _ ~ʷ S.elements := take_append_drop n S.elements

theorem elements_taken_taken (S : Shown (Value k)) (m n : ℕ) :
    (Shown.taken n (Shown.taken m S.trail).trail).elements ~ʷ (Shown.taken (min m n) S.trail).elements :=
  calc (Shown.taken n (Shown.taken m S.trail).trail).elements
    _ ~ʷ (Shown.taken m S.trail).elements.take n := Trail.elements_taken n _
    _ ~ʷ (S.elements.take m).take n := take_congr (Trail.elements_taken m S.trail) n
    _ ~ʷ S.elements.take (min m n) := take_take m n S.elements
    _ ~ʷ (Shown.taken (min m n) S.trail).elements := (Trail.elements_taken _ S.trail).symm

theorem elements_skipped_skipped (S : Shown (Value k)) (m n : ℕ) :
    (Shown.deferred ((Shown.deferred (S.trail.drop m)).trail.drop n)).elements ~ʷ
      (Shown.deferred (S.trail.drop (m + n))).elements :=
  calc (Shown.deferred ((Shown.deferred (S.trail.drop m)).trail.drop n)).elements
    _ ~ʷ (Shown.deferred (S.trail.drop m)).elements.drop n := elements_skipped _ n
    _ ~ʷ (S.elements.drop m).drop n := WSeq.dropn_congr (elements_skipped S m) n
    _ = S.elements.drop (m + n) := (WSeq.dropn_add S.elements m n).symm
    _ ~ʷ (Shown.deferred (S.trail.drop (m + n))).elements := (elements_skipped S _).symm

theorem HasLength.listed {c : ℕ∞} (hst : st.Means w) (hquiet : ∀ id, ¬ st.Running id) (hs : Formed w s)
    (h : HasLength (elements w s) c) (n : ℕ) :
    ∃ xs st', Gives (Plan.take (.given s) n).listed st xs st' ∧ (xs.length : ℕ∞) = min (n : ℕ∞) c := by
  obtain ⟨values, hvalues, hlength⟩ := h.starts n
  obtain ⟨xs, st', w', hgives, -, hread⟩ :=
    (Plan.firsts_adequate hst (given_means hs) n).gives hquiet hvalues
  refine ⟨xs, st', hgives, ?_⟩
  rw [List.Forall₂.length_eq hread, hlength]

theorem takeWhile_means (h : input.Means w S) (hp : (El.reading k).fn (.same Bool) w p.apply q) :
    (Plan.takeWhile input p).Means w (.deferred (.takenWhile q S.trail)) := ⟨S, q, h, hp, rfl⟩

theorem longestPrefix_elements (q : Value k → Bool) (S : Shown (Value k)) :
    LongestPrefix q S.elements (Trail.elements (.takenWhile q S.trail)) :=
  Trail.longestPrefix_takenWhile q S.trail

theorem takeWhile_behind (hst : st.Means w) (hquiet : ∀ id, ¬ st.Running id) (hs : Formed w s)
    (hp : (El.reading k).fn (.same Bool) w p.apply q) {fuel : ℕ} {xs : List (El k)} {st₁ : Store ι}
    (h : (Plan.takeWhile (.given s) p).listed fuel st = .ok (xs, st₁)) :
    (∀ x ∈ xs, p.apply x = true) ∧
      ∃ answer st₂, Gives (Plan.skip (.given s) xs.length).head st₁ answer st₂ ∧
        ∀ x, answer = some x → p.apply x = false := by
  obtain ⟨w₁, values, hl, hlists, hread⟩ :=
    (Plan.listed_adequate (takeWhile_means (given_means hs) hp) hst).sound h
  have htaken := (Shown.elements_deferred _).symm.trans hlists.equiv_ofList
  have hlongest := longestPrefix_elements q (Sequence.shown w s)
  have hskip : (Plan.skip (.given s) xs.length).Means w₁
      (.deferred ((trail w s).drop values.length)) := by
    rw [List.Forall₂.length_eq hread]
    exact skip_means (Plan.Means.mono hl.grown (given_means hs)) _
  have hrest := elements_skipped (Sequence.shown w s) values.length
  constructor
  · intro x hx
    obtain ⟨hformed, rfl⟩ := El.list_reading_iff.1 hread
    have hmem := (WSeq.mem_congr htaken _).2 (mem_ofList.2 (List.mem_map_of_mem hx))
    exact (hp w₁ hl.grown x _ ⟨hformed x hx, rfl⟩).trans (hlongest.satisfied _ hmem)
  · obtain hnil | ⟨v, rest, hcons, hv⟩ := hlongest.behind htaken
    · obtain ⟨st₂, hgives⟩ := Plan.head_of_nil hskip hl.means (hl.quiet hquiet) (hrest.trans hnil)
      exact ⟨none, st₂, hgives, nofun⟩
    · obtain ⟨x, st₂, w₂, hgives, hl₂, hx⟩ :=
        Plan.head_of_cons hskip hl.means (hl.quiet hquiet) (hrest.trans hcons)
      refine ⟨some x, st₂, hgives, fun y hy => ?_⟩
      obtain rfl := Option.some.inj hy
      exact (hp w₂ (hl.grown.trans hl₂.grown) x v hx).trans hv

end Plans

theorem divides (hst : st.Means w) (hquiet : ∀ id, ¬ st.Running id) (k : Kind ι) : Divides st w k where
  rejoined hs n :=
    have hmeans := given_means hs
    Plan.sameElements_of_means ⟨_, _, take_means hmeans n, skip_means hmeans n, rfl⟩ hmeans hst hquiet
      hst hquiet (elements_rejoined _ n)
  taken hs n := (take_means (given_means hs) n).hasElements hst (Trail.elements_taken n _)
  length hs hc n := hc.listed hst hquiet hs n
  takes hs m n :=
    have hmeans := given_means hs
    Plan.sameElements_of_means (take_means (take_means hmeans m) n) (take_means hmeans _) hst hquiet
      hst hquiet (elements_taken_taken _ m n)
  skipped hs n := (skip_means (given_means hs) n).hasElements hst (elements_skipped _ n)
  skips hs m n :=
    have hmeans := given_means hs
    Plan.sameElements_of_means (skip_means (skip_means hmeans m) n) (skip_means hmeans _) hst hquiet
      hst hquiet (elements_skipped_skipped _ m n)
  takeWhile hs hp :=
    ⟨_, (takeWhile_means (given_means hs) hp).hasElements hst (Shown.elements_deferred _),
      longestPrefix_elements _ _⟩
  behind hs hp _ _ _ h := takeWhile_behind hst hquiet hs hp h

/-- After every run of a program nothing is lost where a sequence is cut and nothing repeated, and what is
taken while a test succeeds is the longest prefix that passes it. -/
theorem cutting_lawful {program : List (Step ι)} {fuel : ℕ} {env : Env ι} {st : Store ι}
    (h : Program.run fuel program [] Store.empty = .ok (env, st)) :
    ∃ w : World ι, st.Means w ∧ (∀ id, ¬ st.Running id) ∧ (∀ r ∈ env, El.Formed w r.1 r.2) ∧
      ∀ k, Divides st w k := by
  obtain ⟨vs, w, -, hkept⟩ := Program.run_keeps program kept_empty h
  exact ⟨w, hkept.means, hkept.quiet, formed_of_reads hkept.reads, divides hkept.means hkept.quiet⟩

def trimming : List (Step Atom) :=
  have small : Uniform (.noted (El.reading .nat) (.same Bool)) :=
    .fn El.plain_nat (Reading.plain_same Bool) (.silent fun n : Nat => decide (n < 3))
  [.make (k := .nat) (.generate none) [],
   .make (k := .nat) (.takeWhile 0 small) [0],
   .make (k := .nat) (.skip 0 3) [0],
   .make (k := .nat) (.take 0 4) [2],
   .make (k := .nat) (.concat 0 1) [1, 3],
   .make (k := .nat) (.skip 0 2) [4],
   .next .nat 3]

theorem trimming_lawful :
    Program.Answers (k := .nat) trimming .toVec 5 [] [2, 3, 4, 5, 6] ∧
      ∃ env st, Program.run 20 trimming [] Store.empty = .ok (env, st) ∧
        ∃ w : World Atom, st.Means w ∧ (∀ id, ¬ st.Running id) ∧ (∀ r ∈ env, El.Formed w r.1 r.2) ∧
          ∀ k, Divides st w k := by
  have hrun := (rfl : Program.run 20 trimming [] Store.empty = .ok (_, _))
  exact ⟨⟨30, by decide +kernel⟩, _, _, hrun, cutting_lawful hrun⟩

end MemoSequence
