import MemoSequence.Proofs.Cutting
set_option autoImplicit false

namespace MemoSequence
open Stream' (Seq WSeq)
open Stream'.WSeq (think)
open Sequence (Formed elements trail)

section Values
variable {α β τ : Type}

def scanState (g : τ × α → β × τ) (t : τ) (values : List α) : τ :=
  values.foldl (fun t x => (g (t, x)).2) t

theorem scanValues_ofList (g : τ × α → List β × τ) (t : τ) (values : List α) :
    scanValues (fun x => (Shown.ofList (g x).1, (g x).2)) t values =
      (scanValues g t values).map Shown.ofList := by
  induction values generalizing t with
  | nil => rfl
  | cons x rest ih => rw [scanValues, scanValues, List.map_cons, ih]

theorem cons_scanOutputs (φ : τ × α → τ) (t : τ) (values : List α) :
    t :: scanOutputs (fun x => ([φ x], φ x)) t values = values.scanl (fun t x => φ (t, x)) t := by
  induction values generalizing t with
  | nil => rfl
  | cons x rest ih => rw [scanOutputs, List.singleton_append, ih, List.scanl_cons]

theorem scanOutputs_append (φ : τ × α → τ) (t : τ) (values : List α) :
    scanOutputs (fun x => ([x.1], φ x)) t values ++ [values.foldl (fun t x => φ (t, x)) t] =
      values.scanl (fun t x => φ (t, x)) t := by
  induction values generalizing t with
  | nil => rfl
  | cons x rest ih =>
    rw [scanOutputs, List.append_assoc, List.foldl_cons, ih, List.singleton_append, List.scanl_cons]

end Values

section WeakSequences
variable {α : Type}

theorem ofList_append (a b : List α) : WSeq.ofList (a ++ b) = (WSeq.ofList a).append (.ofList b) := by
  induction a with
  | nil => rw [List.nil_append, WSeq.ofList_nil, WSeq.nil_append]
  | cons x rest ih => rw [List.cons_append, WSeq.ofList_cons, ih, WSeq.ofList_cons, WSeq.cons_append]

theorem inOrder_ofList (parts : List (List α)) :
    inOrder (parts.map WSeq.ofList) = .ofList parts.flatten := by
  induction parts with
  | nil => rfl
  | cons part rest ih =>
    rw [List.flatten_cons, ofList_append, ← ih]
    rfl

theorem Shown.trail_ofList_of_form {values : List α} (h : (Shown.ofList values).form = "Empty") :
    (Shown.ofList values).trail = .nil := by
  cases values with
  | nil => rfl
  | cons x rest => simp [Shown.ofList] at h

end WeakSequences

namespace Trail
variable {α β τ : Type} {d e : Trail α}

theorem frontless_elements : Frontless d.elements ↔ Frontless d := by
  refine ⟨fun h n hn => ?_, (strict_map Prod.fst).frontless⟩
  obtain ⟨r, rfl⟩ := hn
  refine h n ⟨r.map fun p => (p.1.1, elements p.2), ?_⟩
  rw [elements_ticks, elements_front]

theorem exists_elements (d : WSeq α) : ∃ e : Trail α, e.elements = d := by
  refine ⟨d.map fun x => (x, "Lazy"), ?_⟩
  rw [elements, ← WSeq.map_comp]
  exact WSeq.map_id d

theorem scanned_congr (g : τ × α → β × τ) (t : τ) (h : d.elements ~ʷ e.elements) :
    (scanned g t d).elements ~ʷ (scanned g t e).elements := by
  refine equiv_of_alongside (C := fun a b => ∃ (i j : ℕ) (t : τ) (d e : Trail α),
    d.elements ~ʷ e.elements ∧ a = think^[i] (scanned g t d).elements ∧
      b = think^[j] (scanned g t e).elements) ?_ ⟨0, 0, t, d, e, h, rfl, rfl⟩
  rintro _ _ ⟨i, j, t, d, e, h, rfl, rfl⟩
  obtain ⟨m, _ | ⟨⟨x, form⟩, d⟩, rfl⟩ | hd := arrives_or_frontless d
  · obtain ⟨n, rfl⟩ := nil_of_elements h
    simp only [front, (strict_scanned g t).ticks, scanned_nil, elements_ticks, elements_nil,
      ← Function.iterate_add_apply]
    exact .nil (i + m) (j + n)
  · obtain ⟨n, form', e, rfl, hrest⟩ := cons_of_elements h
    simp only [front, (strict_scanned g t).ticks, scanned_cons, elements_ticks, elements_cons,
      elements_think, ← Function.iterate_add_apply]
    exact .cons (i + m) (j + n) _ ⟨1, 1, _, d, e, hrest, rfl, rfl⟩
  · -- Neither has a front, and this stays so however many ticks are taken off.
    have he := frontless_elements.1 ((frontless_elements.2 hd).congr h)
    obtain ⟨d, rfl, hd'⟩ := hd.think_eq
    obtain ⟨e, rfl, he'⟩ := he.think_eq
    simp only [(strict_scanned g t).eq, elements_think, ← Function.iterate_succ_apply]
    exact .think i j ⟨0, 0, t, d, e, equiv_of_frontless (frontless_elements.2 hd')
      (frontless_elements.2 he'), rfl, rfl⟩

/-- Behind the first values a scan goes on from the state after them. -/
theorem scanned_append (g : τ × α → β × τ) (t : τ) (values : List α)
    (h : d.elements ~ʷ (WSeq.ofList values).append e.elements) :
    (scanned g t d).elements ~ʷ
      (WSeq.ofList (scanValues g t values)).append (scanned g (scanState g t values) e).elements := by
  induction values generalizing t d with
  | nil =>
    rw [WSeq.ofList_nil, WSeq.nil_append] at h
    rw [scanValues, WSeq.ofList_nil, WSeq.nil_append]
    exact scanned_congr g t h
  | cons x rest ih =>
    rw [WSeq.ofList_cons, WSeq.cons_append] at h
    obtain ⟨n, form, d, rfl, hrest⟩ := elements_equiv_cons.1 h
    rw [(strict_scanned g t).ticks, elements_ticks, scanned_cons, elements_cons, elements_think,
      scanValues, WSeq.ofList_cons, WSeq.cons_append]
    refine (ticks_equiv n _).trans (WSeq.cons_congr _ ?_)
    exact (WSeq.think_equiv _).trans (ih _ hrest)

end Trail

section Scans
variable {α β τ : Type} {d e : Trail α}

theorem elements_stateScanned (g : τ × α → List β × τ) (t : τ) (d : Trail α) :
    (Make.stateScanned g t d).elements ~ʷ
      (Trail.scanned (fun x => (Shown.ofList (g x).1, (g x).2)) t d).elements.bind Shown.elements :=
  (Shown.elements_deferred _).trans
    ((Trail.elements_flattened _).trans (WSeq.bind_congr (Shown.elements_deferred _) fun _ => .refl _))

theorem form_stateScanned_ne {g : τ × α → List β × τ} {t : τ} :
    ¬ (Make.stateScanned g t d).form = "Empty" := Shown.form_deferred_ne

theorem stateScanned_append (g : τ × α → List β × τ) (t : τ) (values : List α)
    (h : d.elements ~ʷ (WSeq.ofList values).append e.elements) :
    (Make.stateScanned g t d).elements ~ʷ (WSeq.ofList (scanOutputs g t values)).append
      (Make.stateScanned g (scanState g t values) e).elements := by
  have hparts : inOrder ((scanValues (fun x => (Shown.ofList (g x).1, (g x).2)) t values).map
      Shown.elements) = .ofList (scanOutputs g t values) := by
    rw [scanValues_ofList, List.map_map, scanOutputs_eq, ← inOrder_ofList]
    congr 2
    exact funext Shown.elements_ofList
  calc (Make.stateScanned g t d).elements
    _ ~ʷ (Trail.scanned (fun x => (Shown.ofList (g x).1, (g x).2)) t d).elements.bind Shown.elements :=
      elements_stateScanned g t d
    _ ~ʷ ((WSeq.ofList (scanValues (fun x => (Shown.ofList (g x).1, (g x).2)) t values)).append
          (Trail.scanned (fun x => (Shown.ofList (g x).1, (g x).2)) (scanState g t values) e).elements).bind
        Shown.elements := WSeq.bind_congr (Trail.scanned_append _ t values h) fun _ => .refl _
    _ ~ʷ (WSeq.ofList (scanOutputs g t values)).append
        ((Trail.scanned (fun x => (Shown.ofList (g x).1, (g x).2)) (scanState g t values) e).elements.bind
          Shown.elements) := hparts ▸ bind_ofList_append _ _ _
    _ ~ʷ (WSeq.ofList (scanOutputs g t values)).append
        (Make.stateScanned g (scanState g t values) e).elements :=
      append_congr (.refl _) (elements_stateScanned g _ e).symm

theorem elements_terminated (S : Shown α) :
    S.terminated.elements ~ʷ (S.elements.map some).append (.cons none .nil) := by
  have hlast : (Shown.cons none Shown.empty : Shown (Option α)).elements = .cons none .nil := by
    rw [Shown.elements, Shown.cons, Trail.elements_cons]
    rfl
  have hmapped := (Shown.elements_deferred _).trans (Trail.elements_mapped some S.trail)
  rw [Shown.terminated, Shown.elements_concat (fun h => absurd h Shown.form_deferred_ne)
    (fun h => by simp [Shown.cons] at h), hlast]
  exact append_congr hmapped (.refl _)

theorem stateScanned_of_cons (g : τ × α → List β × τ) (t : τ) {x : α}
    (h : d.elements ~ʷ .cons x e.elements) :
    (Make.stateScanned g t d).elements ~ʷ
      (WSeq.ofList (g (t, x)).1).append (Make.stateScanned g (g (t, x)).2 e).elements := by
  have hsingle : d.elements ~ʷ (WSeq.ofList [x]).append e.elements := by
    rwa [WSeq.ofList_cons, WSeq.ofList_nil, WSeq.cons_append, WSeq.nil_append]
  have hrest := stateScanned_append g t [x] hsingle
  rwa [scanOutputs, scanOutputs, List.append_nil] at hrest

theorem Frontless.stateScanned (g : τ × α → List β × τ) (t : τ) (h : Frontless d) :
    Frontless (Make.stateScanned g t d).trail := by
  have hinner := ((Trail.strict_scanned (fun x => (Shown.ofList (g x).1, (g x).2)) t).frontless h).think
  exact (Trail.strict_flattened.frontless hinner).think

theorem starts_inclusive {φ : τ × α → τ} {t : τ} {n : ℕ} {outs : List τ} :
    Starts (Make.stateScanned (fun x => ([φ x], φ x)) t d).elements n outs ↔
      ∃ values, Starts d.elements n values ∧ t :: outs = values.scanl (fun t x => φ (t, x)) t := by
  induction n generalizing d t outs with
  | zero => simp [starts_zero]
  | succ n ih =>
    obtain ⟨i, _ | ⟨⟨x, form⟩, rest⟩, rfl⟩ | hd := arrives_or_frontless d
    · have hnil : (Make.stateScanned (fun x => ([φ x], φ x)) t (think^[i] .nil)).elements ~ʷ .nil :=
        ((Lists.nil i).stateScanned _ t).equiv_ofList
      simp [front, starts_of_nil hnil, starts_of_nil (Trail.elements_ticks_nil i)]
    · have hcons := Trail.elements_ticks_cons i x form rest
      have hout := stateScanned_of_cons (fun x => ([φ x], φ x)) t hcons
      rw [WSeq.ofList_cons, WSeq.ofList_nil, WSeq.cons_append, WSeq.nil_append] at hout
      simp only [front, starts_of_cons hout, starts_of_cons hcons, ih]
      constructor
      · rintro ⟨more, rfl, values, hvalues, hscan⟩
        exact ⟨x :: values, ⟨values, rfl, hvalues⟩, by rw [List.scanl_cons, hscan]⟩
      · rintro ⟨_, ⟨values, rfl, hvalues⟩, hscan⟩
        rw [List.scanl_cons, List.cons.injEq] at hscan
        have hhead : ∃ more, values.scanl (fun t x => φ (t, x)) (φ (t, x)) = φ (t, x) :: more := by
          cases values with
          | nil => exact ⟨[], List.scanl_nil⟩
          | cons y values => exact ⟨_, List.scanl_cons⟩
        obtain ⟨more, hmore⟩ := hhead
        exact ⟨more, hscan.2.trans hmore, values, hvalues, hmore.symm⟩
    · refine iff_of_false (fun h => ?_) ?_
      · obtain ⟨m, r, hr⟩ := h.front
        exact hd.stateScanned _ t m ⟨r, hr⟩
      · rintro ⟨values, h, -⟩
        obtain ⟨m, r, hr⟩ := h.front
        exact hd m ⟨r, hr⟩

theorem exclusive_equiv_inclusive (φ : τ × α → τ) (t : τ) {values : List α} (h : Lists d values) :
    ((Make.stateScanned (fun x => ([x.1], φ x)) t d).concat
        (.cons (values.foldl (fun t x => φ (t, x)) t) .empty)).elements ~ʷ
      (Shown.cons t (Make.stateScanned (fun x => ([φ x], φ x)) t d)).elements := by
  have hbefore := (h.stateScanned (fun x => ([x.1], φ x)) t).equiv_ofList
  have hafter := (h.stateScanned (fun x => ([φ x], φ x)) t).equiv_ofList
  have hcons : ∀ (u : τ) (S : Shown τ), (Shown.cons u S).elements = .cons u S.elements :=
    fun u S => Trail.elements_cons (u, S.form) S.trail
  have hlast : (Shown.cons (values.foldl (fun t x => φ (t, x)) t) .empty).elements =
      .ofList [values.foldl (fun t x => φ (t, x)) t] := by
    rw [hcons, WSeq.ofList_cons]
    rfl
  rw [Shown.elements_concat (fun h => absurd h form_stateScanned_ne) (fun h => by simp [Shown.cons] at h),
    hlast, hcons]
  calc (Make.stateScanned (fun x => ([x.1], φ x)) t d).elements.append
        (.ofList [values.foldl (fun t x => φ (t, x)) t])
    _ ~ʷ (WSeq.ofList (scanOutputs (fun x => ([x.1], φ x)) t values)).append
        (.ofList [values.foldl (fun t x => φ (t, x)) t]) := append_congr hbefore (.refl _)
    _ = .ofList (values.scanl (fun t x => φ (t, x)) t) := by rw [← ofList_append, scanOutputs_append]
    _ = .cons t (.ofList (scanOutputs (fun x => ([φ x], φ x)) t values)) := by
      rw [← WSeq.ofList_cons, cons_scanOutputs]
    _ ~ʷ .cons t (Make.stateScanned (fun x => ([φ x], φ x)) t d).elements :=
      WSeq.cons_congr t hafter.symm

theorem scanState_inclusive (φ : τ × α → τ) (t : τ) (values : List α) :
    scanState (fun x => ([φ x], φ x)) t values = values.foldl (fun t x => φ (t, x)) t := rfl

theorem inclusive_drop (φ : τ × α → τ) (t : τ) {i : ℕ} {values : List α} {rest : WSeq α}
    (hlength : values.length = i + 1) (h : d.elements ~ʷ (WSeq.ofList values).append rest) :
    ∃ more, (Make.stateScanned (fun x => ([φ x], φ x)) t d).elements.drop i ~ʷ
      .cons (values.foldl (fun t x => φ (t, x)) t) more := by
  obtain ⟨before, last, rfl⟩ : ∃ before last, values = before ++ [last] :=
    ⟨_, _, (List.dropLast_append_getLast (List.ne_nil_of_length_eq_add_one hlength)).symm⟩
  obtain ⟨r, rfl⟩ := Trail.exists_elements rest
  have hcons : Trail.elements (.cons (last, "Lazy") r) ~ʷ .cons last r.elements := by
    rw [Trail.elements_cons]
  have hsplit : d.elements ~ʷ (WSeq.ofList before).append (Trail.elements (.cons (last, "Lazy") r)) := by
    rw [Trail.elements_cons]
    rwa [ofList_append, WSeq.append_assoc, WSeq.ofList_cons, WSeq.ofList_nil, WSeq.cons_append,
      WSeq.nil_append] at h
  have hcount : (scanOutputs (fun x => ([φ x], φ x)) t before).length = i := by
    have hscan := congrArg List.length (cons_scanOutputs φ t before)
    rw [List.length_cons, List.length_scanl] at hscan
    rw [List.length_append, List.length_singleton] at hlength
    omega
  have hdrop := WSeq.dropn_congr (stateScanned_append (fun x => ([φ x], φ x)) t before hsplit) i
  rw [← hcount, drop_ofList_append, hcount] at hdrop
  have hnext := stateScanned_of_cons (fun x => ([φ x], φ x))
    (scanState (fun x => ([φ x], φ x)) t before) hcons
  rw [WSeq.ofList_cons, WSeq.ofList_nil, WSeq.cons_append, WSeq.nil_append, scanState_inclusive] at hnext
  rw [List.foldl_append]
  exact ⟨_, hdrop.trans hnext⟩

end Scans

variable {ι : Type} [Basis ι] {a b : Kind ι} {st : Store ι} {w : World ι}

/-- A step and the state it starts in, with what they stand for. -/
structure Threaded {σ τ : Type} (R : Reading ι σ τ) (w : World ι) (state : σ) (start : τ)
    (step : Fn (σ × El a) (List (El b) × σ)) (g : τ × Value a → List (Value b) × τ) : Prop where
  lasting : R.Lasting
  state : R w state start
  step : (R.prod (El.reading a)).fn ((El.reading b).list.prod R) w step.apply g

namespace Threaded
variable {σ τ : Type} {R : Reading ι σ τ} {state : σ} {start : τ}
  {step : Fn (σ × El a) (List (El b) × σ)} {g : τ × Value a → List (Value b) × τ} {input : Plan a}
  {S : Shown (Value a)} {xs : List (El a)} {values : List (Value a)}

theorem mono {w' : World ι} (h : Threaded R w state start step g) (hw : w <+: w') :
    Threaded R w' state start step g where
  lasting := h.lasting
  state := h.lasting hw h.state
  step := Reading.lasting_fn _ _ hw h.step

theorem means (h : Threaded R w state start step g) (hS : input.Means w S) :
    (input.stateScanned state step).Means w (Make.stateScanned g start S.trail) :=
  Make.stateScanned_means h.lasting hS h.state h.step

theorem after (h : Threaded R w state start step g) (hread : (El.reading a).list w xs values) :
    Threaded R w (scanState step.apply state xs) (scanState g start values) step g ∧
      (El.reading b).list w (scanOutputs step.apply state xs) (scanOutputs g start values) := by
  induction hread generalizing state start with
  | nil => exact ⟨h, .nil⟩
  | cons hx _ ih =>
    obtain ⟨hout, hstate⟩ := h.step w List.prefix_rfl (_, _) (_, _) ⟨h.state, hx⟩
    obtain ⟨hlast, houts⟩ := ih ⟨h.lasting, hstate, h.step⟩
    exact ⟨hlast, List.rel_append hout houts⟩

end Threaded

def Plan.folded (plan : Plan a) (f : Fn (El b × El a) (El b)) (init : El b) (fuel : Nat) :
    Run ι (El b) := do
  Sequence.fold f init fuel (← Run.build plan)

section Folds
variable {s : Sequence a} {plan : Plan a} {S : Shown (Value a)} {init : El b} {start : Value b}
  {f : Fn (El b × El a) (El b)} {φ : Value b × Value a → Value b}

theorem threaded_inclusive (hinit : El.reading b w init start)
    (hf : ((El.reading b).prod (El.reading a)).fn (El.reading b) w f.apply φ) :
    Threaded (El.reading b) w init start ⟨fun x => let next := f.apply x; ([next], next), f.note⟩
      fun x : Value b × Value a => ([φ x], φ x) where
  lasting := El.lasting_reading b
  state := hinit
  step w' hw x v hx := ⟨.cons (hf w' hw x v hx) .nil, hf w' hw x v hx⟩

theorem threaded_exclusive (hinit : El.reading b w init start)
    (hf : ((El.reading b).prod (El.reading a)).fn (El.reading b) w f.apply φ) :
    Threaded (El.reading b) w init start ⟨fun x => ([x.1], f.apply x), f.note⟩
      fun x : Value b × Value a => ([x.1], φ x) where
  lasting := El.lasting_reading b
  state := hinit
  step w' hw x v hx := ⟨.cons hx.1 .nil, hf w' hw x v hx⟩

theorem fold_adequate (hst : st.Means w) (hs : Formed w s) (hinit : El.reading b w init start)
    (hf : ((El.reading b).prod (El.reading a)).fn (El.reading b) w f.apply φ) :
    Adequate (fun fuel => Sequence.fold f init fuel s) st w (El.reading b)
      (Drains (fun t v => .yield (φ (t, v))) start (trail w s)) := by
  refine traverse_adequate (El.lasting_reading b) ?_ hst hs hinit
  intro w' hw t u x v ht hx
  exact ⟨_, Run.notes_call_bind (Run.notes_pure _), hf w' hw (t, x) (u, v) ⟨ht, hx⟩⟩

theorem Plan.folded_adequate (hplan : plan.Means w S) (hst : st.Means w)
    (hinit : El.reading b w init start)
    (hf : ((El.reading b).prod (El.reading a)).fn (El.reading b) w f.apply φ) :
    Adequate (plan.folded f init) st w (El.reading b)
      (Drains (fun t v => .yield (φ (t, v))) start S.trail) :=
  built_adequate hplan hst fun hl ⟨hs, hshown⟩ => hshown ▸ fold_adequate hl.means hs
    (El.lasting_reading b hl.grown hinit) (Reading.lasting_fn _ _ hl.grown hf)

end Folds

/-- What threading a state comes to; `a` is the kind of the elements, and `b` that of the outputs. -/
structure Threads (st : Store ι) (w : World ι) (a b : Kind ι) : Prop where
  seam : ∀ {σ τ : Type} {R : Reading ι σ τ} {state : σ} {start : τ}
    {step : Fn (σ × El a) (List (El b) × σ)} {g : τ × Value a → List (Value b) × τ} {s t : Sequence a},
    Threaded R w state start step g → Formed w s → Formed w t →
    ∀ {fuel : ℕ} {xs : List (El a)} {st₁ : Store ι}, Sequence.toList fuel s st = .ok (xs, st₁) →
    ∃ w₁, st.Leads w st₁ w₁ ∧
      (Plan.stateScanned (.append (.given s) (.given t)) state step).SameElements st w
        (.append (.ofList (scanOutputs step.apply state xs))
          (.stateScanned (.given t) (scanState step.apply state xs) step)) st₁ w₁
  terminated : ∀ {s : Sequence a}, Formed w s →
    (Plan.terminated (.given s)).HasElements st w (((elements w s).map some).append (.cons none .nil))
  marked : ∀ {σ τ : Type} {R : Reading ι σ τ} {state : σ} {start : τ}
    {step : Fn (σ × El (.option a)) (List (El b) × σ)}
    {g : τ × Value (.option a) → List (Value b) × τ} {s : Sequence a},
    Threaded R w state start step g → Formed w s →
    ∀ {fuel : ℕ} {xs : List (El a)} {st₁ : Store ι}, Sequence.toList fuel s st = .ok (xs, st₁) →
    ∃ w₁, st.Leads w st₁ w₁ ∧
      (Plan.stateScanned (.terminated (.given s)) state step).SameElements st w
        (.ofList (scanOutputs step.apply state (xs.map some ++ [none]))) st₁ w₁
  exclusive : ∀ {init : El b} {start : Value b} {f : Fn (El b × El a) (El b)}
    {φ : Value b × Value a → Value b} {s : Sequence a}, El.reading b w init start →
    ((El.reading b).prod (El.reading a)).fn (El.reading b) w f.apply φ → Formed w s →
    (∃ fuel xs st₁, Sequence.toList fuel s st = .ok (xs, st₁)) →
    ∃ total st₁ w₁, Gives (fun fuel => Sequence.fold f init fuel s) st total st₁ ∧ st.Leads w st₁ w₁ ∧
      (Plan.append (.exclusiveScan (.given s) init f) (.single total)).SameElements st₁ w₁
        (.cons init (.inclusiveScan (.given s) init f)) st w
  accumulates : ∀ {init : El b} {start : Value b} {f : Fn (El b × El a) (El b)}
    {φ : Value b × Value a → Value b} {s : Sequence a}, El.reading b w init start →
    ((El.reading b).prod (El.reading a)).fn (El.reading b) w f.apply φ → Formed w s → ∀ n,
    Adequate ((Plan.inclusiveScan (.given s) init f).firsts n) st w (El.reading b).list
      fun outs => ∃ values, Starts (elements w s) n values ∧
        start :: outs = values.scanl (fun t v => φ (t, v)) start
  folds : ∀ {init : El b} {start : Value b} {f : Fn (El b × El a) (El b)}
    {φ : Value b × Value a → Value b} {s : Sequence a}, El.reading b w init start →
    ((El.reading b).prod (El.reading a)).fn (El.reading b) w f.apply φ → Formed w s → ∀ i,
    Long (elements w s) (i + 1) →
    ∃ total st₁ w₁ y st₂ w₂ v, Gives ((Plan.take (.given s) (i + 1)).folded f init) st total st₁ ∧
      st.Leads w st₁ w₁ ∧ El.reading b w₁ total v ∧
      Gives (Plan.skip (.inclusiveScan (.given s) init f) i).head st (some y) st₂ ∧
      st.Leads w st₂ w₂ ∧ El.reading b w₂ y v

section Laws
variable {σ τ : Type} {R : Reading ι σ τ} {state : σ} {start : τ} {s t : Sequence a} {fuel : ℕ}
  {xs : List (El a)} {st₁ : Store ι}

theorem scan_seam (hst : st.Means w) (hquiet : ∀ id, ¬ st.Running id)
    {step : Fn (σ × El a) (List (El b) × σ)} {g : τ × Value a → List (Value b) × τ}
    (h : Threaded R w state start step g) (hs : Formed w s) (ht : Formed w t)
    (hlist : Sequence.toList fuel s st = .ok (xs, st₁)) :
    ∃ w₁, st.Leads w st₁ w₁ ∧
      (Plan.stateScanned (.append (.given s) (.given t)) state step).SameElements st w
        (.append (.ofList (scanOutputs step.apply state xs))
          (.stateScanned (.given t) (scanState step.apply state xs) step)) st₁ w₁ := by
  obtain ⟨values, w₁, hlists, hl, hread⟩ := Sequence.lists_of_toList hst hs hlist
  obtain ⟨hafter, houts⟩ := (h.mono hl.grown).after hread
  have hinput : (Plan.append (.given s) (.given t)).Means w
      ((Sequence.shown w s).concat (Sequence.shown w t)) :=
    ⟨_, _, given_means hs, given_means ht, rfl⟩
  have helements : ((Sequence.shown w s).concat (Sequence.shown w t)).elements ~ʷ
      (WSeq.ofList values).append (elements w t) := by
    have hconcat : ((Sequence.shown w s).concat (Sequence.shown w t)).elements =
        (elements w s).append (elements w t) := by
      rw [← Sequence.shown_concat w s ht]
      exact Sequence.elements_concat w s ht
    exact hconcat ▸ append_congr hlists.equiv_ofList (.refl _)
  have hrest := hafter.means (Plan.Means.mono hl.grown (given_means ht))
  have hsame : (Make.stateScanned g start ((Sequence.shown w s).concat (Sequence.shown w t)).trail).elements ~ʷ
      ((Shown.ofList (scanOutputs g start values)).concat
        (Make.stateScanned g (scanState g start values) (trail w t))).elements := by
    rw [Shown.elements_concat Shown.trail_ofList_of_form fun h => absurd h form_stateScanned_ne,
      Shown.elements_ofList]
    exact stateScanned_append g start values helements
  exact ⟨w₁, hl, Plan.sameElements_of_means (h.means hinput)
    ⟨_, _, Sequence.reading_ofList houts, hrest, rfl⟩ hst hquiet hl.means (hl.quiet hquiet) hsame⟩

theorem scan_marked (hst : st.Means w) (hquiet : ∀ id, ¬ st.Running id)
    {step : Fn (σ × El (.option a)) (List (El b) × σ)} {g : τ × Value (.option a) → List (Value b) × τ}
    (h : Threaded R w state start step g) (hs : Formed w s)
    (hlist : Sequence.toList fuel s st = .ok (xs, st₁)) :
    ∃ w₁, st.Leads w st₁ w₁ ∧
      (Plan.stateScanned (.terminated (.given s)) state step).SameElements st w
        (.ofList (scanOutputs step.apply state (xs.map some ++ [none]))) st₁ w₁ := by
  obtain ⟨values, w₁, hlists, hl, hread⟩ := Sequence.lists_of_toList hst hs hlist
  have hmarked : (El.reading (.option a)).list w₁ (xs.map some ++ [none]) (values.map some ++ [none]) :=
    List.rel_append (List.rel_map (fun _ _ hx => El.reading_some hx) hread)
      (.cons (El.reading_none w₁ a) .nil)
  have houts := ((h.mono hl.grown).after hmarked).2
  have hsame : (Make.stateScanned g start (Sequence.shown w s).terminated.trail).elements ~ʷ
      (Shown.ofList (scanOutputs g start (values.map some ++ [none]))).elements := by
    rw [Shown.elements_ofList]
    exact (hlists.terminated.stateScanned g start).equiv_ofList
  exact ⟨w₁, hl, Plan.sameElements_of_means (h.means (Plan.terminated_means (given_means hs)))
    (Sequence.reading_ofList houts) hst hquiet hl.means (hl.quiet hquiet) hsame⟩

variable {init : El b} {first : Value b} {f : Fn (El b × El a) (El b)} {φ : Value b × Value a → Value b}

theorem exclusive_total (hst : st.Means w) (hquiet : ∀ id, ¬ st.Running id)
    (hinit : El.reading b w init first)
    (hf : ((El.reading b).prod (El.reading a)).fn (El.reading b) w f.apply φ) (hs : Formed w s)
    (hlist : Sequence.toList fuel s st = .ok (xs, st₁)) :
    ∃ total st₁ w₁, Gives (fun fuel => Sequence.fold f init fuel s) st total st₁ ∧ st.Leads w st₁ w₁ ∧
      (Plan.append (.exclusiveScan (.given s) init f) (.single total)).SameElements st₁ w₁
        (.cons init (.inclusiveScan (.given s) init f)) st w := by
  obtain ⟨values, -, hlists, -, -⟩ := Sequence.lists_of_toList hst hs hlist
  obtain ⟨total, st₁, w₁, hgives, hl, htotal⟩ :=
    (fold_adequate hst hs hinit hf).gives hquiet (hlists.drains _ first)
  refine ⟨total, st₁, w₁, hgives, hl, ?_⟩
  have hbefore := ((threaded_exclusive hinit hf).mono hl.grown).means
    (Plan.Means.mono hl.grown (given_means hs))
  have hafter := (threaded_inclusive hinit hf).means (given_means hs)
  have hlast : El.reading (.seq b) w₁ (Node.single total)
      (.cons (values.foldl (fun t v => φ (t, v)) first) .empty) := Plan.reading_one htotal ⟨.empty, rfl⟩
  have hsame : ((Make.stateScanned (fun x => ([x.1], φ x)) first (trail w s)).concat
        (.cons (values.foldl (fun t v => φ (t, v)) first) .empty)).elements ~ʷ
      (Shown.cons first (Make.stateScanned (fun x => ([φ x], φ x)) first (trail w s))).elements :=
    exclusive_equiv_inclusive φ first hlists
  exact Plan.sameElements_of_means ⟨_, _, hbefore, hlast, rfl⟩ ⟨_, _, hinit, hafter, rfl⟩ hl.means
    (hl.quiet hquiet) hst hquiet hsame

theorem inclusive_adequate (hst : st.Means w) (hinit : El.reading b w init first)
    (hf : ((El.reading b).prod (El.reading a)).fn (El.reading b) w f.apply φ) (hs : Formed w s) (n : ℕ) :
    Adequate ((Plan.inclusiveScan (.given s) init f).firsts n) st w (El.reading b).list
      fun outs => ∃ values, Starts (elements w s) n values ∧
        first :: outs = values.scanl (fun t v => φ (t, v)) first :=
  (Plan.firsts_adequate hst ((threaded_inclusive hinit hf).means (given_means hs)) n).congr fun _ =>
    starts_inclusive

theorem output_eq_fold (hst : st.Means w) (hquiet : ∀ id, ¬ st.Running id)
    (hinit : El.reading b w init first)
    (hf : ((El.reading b).prod (El.reading a)).fn (El.reading b) w f.apply φ) (hs : Formed w s) {i : ℕ}
    (hlong : Long (elements w s) (i + 1)) :
    ∃ total st₁ w₁ y st₂ w₂ v, Gives ((Plan.take (.given s) (i + 1)).folded f init) st total st₁ ∧
      st.Leads w st₁ w₁ ∧ El.reading b w₁ total v ∧
      Gives (Plan.skip (.inclusiveScan (.given s) init f) i).head st (some y) st₂ ∧
      st.Leads w st₂ w₂ ∧ El.reading b w₂ y v := by
  obtain ⟨values, rest, hlength, hsplit⟩ := hlong
  have hstarts : Starts (elements w s) (i + 1) values :=
    hlength ▸ (starts_append values rest).congr hsplit.symm
  obtain ⟨total, st₁, w₁, htotal, hl₁, hread⟩ :=
    (Plan.folded_adequate (take_means (given_means hs) (i + 1)) hst hinit hf).gives hquiet
      ((lists_taken_iff.2 hstarts).drains _ first)
  have hscan := (threaded_inclusive hinit hf).means (given_means hs)
  have houtput : ∃ more, (Shown.deferred ((Make.stateScanned (fun x => ([φ x], φ x)) first
      (trail w s)).trail.drop i)).elements ~ʷ
        .cons (values.foldl (fun t v => φ (t, v)) first) more := by
    obtain ⟨more, hmore⟩ := inclusive_drop φ first hlength hsplit
    exact ⟨more, (elements_skipped _ i).trans hmore⟩
  obtain ⟨more, hmore⟩ := houtput
  obtain ⟨y, st₂, w₂, hhead, hl₂, hy⟩ := Plan.head_of_cons (skip_means hscan i) hst hquiet hmore
  exact ⟨total, st₁, w₁, y, st₂, w₂, _, htotal, hl₁, hread, hhead, hl₂, hy⟩

end Laws

theorem threads (hst : st.Means w) (hquiet : ∀ id, ¬ st.Running id) (a b : Kind ι) :
    Threads st w a b where
  seam h hs ht _ _ _ hlist := scan_seam hst hquiet h hs ht hlist
  terminated hs := (Plan.terminated_means (given_means hs)).hasElements hst (elements_terminated _)
  marked h hs _ _ _ hlist := scan_marked hst hquiet h hs hlist
  exclusive hinit hf hs := fun ⟨_, _, _, hlist⟩ => exclusive_total hst hquiet hinit hf hs hlist
  accumulates hinit hf hs n := inclusive_adequate hst hinit hf hs n
  folds hinit hf hs _ hlong := output_eq_fold hst hquiet hinit hf hs hlong

/-- After every run of a program a scan goes on behind a finite sequence where it has come to there, and its
accumulators are those of the fold. -/
theorem threading_lawful {program : List (Step ι)} {fuel : ℕ} {env : Env ι} {st : Store ι}
    (h : Program.run fuel program [] Store.empty = .ok (env, st)) :
    ∃ w : World ι, st.Means w ∧ (∀ id, ¬ st.Running id) ∧ (∀ r ∈ env, El.Formed w r.1 r.2) ∧
      ∀ a b, Threads st w a b := by
  obtain ⟨vs, w, -, hkept⟩ := Program.run_keeps program kept_empty h
  exact ⟨w, hkept.means, hkept.quiet, formed_of_reads hkept.reads, threads hkept.means hkept.quiet⟩

def accumulating : List (Step Atom) :=
  have odd : Uniform (.noted ((Reading.same Nat).prod (El.reading .nat))
      ((El.reading .nat).list.prod (Reading.same Nat))) :=
    .fn ((Reading.plain_same Nat).prod El.plain_nat) (El.plain_nats.prod (Reading.plain_same Nat))
      (.silent fun p : Nat × Nat => (if p.1 % 2 = 0 then [] else [p.1, p.2], p.1 + p.2))
  have plus : Uniform (.noted ((El.reading .nat).prod (El.reading .nat)) (El.reading .nat)) :=
    .fn (El.plain_nat.prod El.plain_nat) El.plain_nat (.silent fun p : Nat × Nat => p.1 + p.2)
  [.make (k := .nat) (.fromVec (.plain El.plain_nats [3, 1])) [],
   .make (k := .nat) (.generate none) [],
   .make (k := .nat) (.concat 0 1) [0, 1],
   .make (k := .nat) (.stateScan (a := .nat) (.same Nat) (Reading.lasting_same Nat) 0
     (.plain (Reading.plain_same Nat) 0) odd) [2],
   .make (k := .nat) (.inclusiveScan (a := .nat) 0 (.plain El.plain_nat 0) plus) [2],
   .make (k := .nat) (.take 0 5) [4],
   .next .nat 3]

theorem accumulating_lawful :
    Program.Answers (k := .nat) accumulating .toVec 5 [] [3, 4, 4, 5, 7] ∧
      ∃ env st, Program.run 20 accumulating [] Store.empty = .ok (env, st) ∧
        ∃ w : World Atom, st.Means w ∧ (∀ id, ¬ st.Running id) ∧ (∀ r ∈ env, El.Formed w r.1 r.2) ∧
          ∀ a b, Threads st w a b := by
  obtain ⟨env, st, hrun⟩ : ∃ env st, Program.run 20 accumulating [] Store.empty = .ok (env, st) :=
    Program.run_of_isOk (by decide +kernel)
  exact ⟨⟨30, by decide +kernel⟩, env, st, hrun, threading_lawful hrun⟩

end MemoSequence
