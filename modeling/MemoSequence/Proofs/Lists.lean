import MemoSequence.Proofs.Observing
set_option autoImplicit false

namespace MemoSequence
open Stream' (WSeq)
open Stream'.WSeq (think)

inductive Lists {α : Type} : Trail α → List α → Prop
  | nil (n : ℕ) : Lists (think^[n] .nil) []
  | cons {d : Trail α} {values : List α} (n : ℕ) (x : α) (form : String) (h : Lists d values) :
      Lists (think^[n] (.cons (x, form) d)) (x :: values)

namespace Lists
variable {α β τ : Type} {d e : Trail α} {values more : List α}

theorem ticks (j : ℕ) (h : Lists d values) : Lists (think^[j] d) values := by
  cases h with
  | nil n =>
    rw [← Function.iterate_add_apply]
    exact .nil (j + n)
  | cons n x form h =>
    rw [← Function.iterate_add_apply]
    exact .cons (j + n) x form h

theorem tick (h : Lists d values) : Lists (think d) values := h.ticks 1

theorem cons_front (x : α) (form : String) (h : Lists d values) :
    Lists (.cons (x, form) d) (x :: values) := .cons 0 x form h

theorem listed (values : List α) : Lists (Trail.listed values) values := by
  induction values with
  | nil => exact .nil 0
  | cons x rest ih => exact cons_front x _ ih

theorem inside (h : Lists d values) : Lists (Trail.inside d) values := by
  have hs : Strict (Trail.inside (α := α)) := Trail.inside_think
  induction h with
  | nil n =>
    rw [hs.ticks, Trail.inside_nil]
    exact .nil n
  | cons n x form _ ih =>
    rw [hs.ticks, Trail.inside_cons]
    exact .cons n x "Composite" ih

theorem append (h : Lists d values) (he : Lists e more) :
    Lists (d.append e) (values ++ more) := by
  have hs : Strict (WSeq.append · e) := strict_append e
  induction h with
  | nil n =>
    rw [hs.ticks, WSeq.nil_append]
    exact he.ticks n
  | cons n x form _ ih =>
    rw [hs.ticks, WSeq.cons_append]
    exact .cons n x form ih

theorem chained (h : Lists d values) (he : Lists e more) :
    Lists (Trail.chained [d, e]) (values ++ more) := h.inside.append he

theorem mapped (g : α → β) (h : Lists d values) : Lists (Trail.mapped g d) (values.map g) := by
  have hs := Trail.strict_mapped g
  induction h with
  | nil n =>
    rw [hs.ticks, Trail.mapped_nil]
    exact .nil n
  | cons n x form _ ih =>
    rw [hs.ticks, Trail.mapped_cons]
    exact .cons n (g x) "Lazy" ih.tick

theorem taken (count : ℕ) (h : Lists d values) :
    Lists (Trail.taken (count + 1) d) (values.take (count + 1)) := by
  induction h generalizing count with
  | nil n =>
    rw [(Trail.strict_taken _).ticks, Trail.taken_nil]
    exact .nil n
  | cons n x form _ ih =>
    rw [(Trail.strict_taken _).ticks, Trail.taken_cons, List.take_succ_cons]
    cases count with
    | zero => exact .cons n x "Empty" (.nil 0)
    | succ count => exact .cons n x "Lazy" (ih count).tick

theorem numbered {source : Source α} {item : α → β} {g : ℕ → β} {limit : ℕ}
    (hs : ∀ i, i < limit → ∃ x, source.at? i = some x ∧ item x = g i) {index count : ℕ}
    (hcount : index + count = limit) :
    Lists (source.trail item (some limit) index) ((List.range' index count).map g) := by
  induction count generalizing index with
  | zero =>
    have hend : ¬ Source.Below (some limit) index := by
      rw [Source.below_some]
      omega
    rw [Source.trail_of_not_below hend]
    exact .nil 0
  | succ count ih =>
    obtain ⟨x, hx, hg⟩ := hs index (by omega)
    have hbelow : Source.Below (some limit) index := by
      rw [Source.below_some]
      omega
    have hrest : Lists (source.trail item (some limit) (index + 1))
        ((List.range' (index + 1) count).map g) := ih (by omega)
    rw [Source.trail_of_below hbelow hx, hg, List.range'_succ, List.map_cons]
    exact .cons_front _ _ hrest

end Lists

def scanValues {α β τ : Type} (g : τ × α → β × τ) : τ → List α → List β
  | _, [] => []
  | t, x :: rest => (g (t, x)).1 :: scanValues g (g (t, x)).2 rest

theorem length_scanValues {α β τ : Type} (g : τ × α → β × τ) (t : τ) (values : List α) :
    (scanValues g t values).length = values.length := by
  induction values generalizing t with
  | nil => rfl
  | cons x rest ih => rw [scanValues, List.length_cons, List.length_cons, ih]

theorem Lists.scanned {α β τ : Type} (g : τ × α → β × τ) (t : τ) {d : Trail α} {values : List α}
    (h : Lists d values) : Lists (Trail.scanned g t d) (scanValues g t values) := by
  induction h generalizing t with
  | nil n =>
    rw [(Trail.strict_scanned g t).ticks, Trail.scanned_nil]
    exact .nil n
  | cons n x form _ ih =>
    rw [(Trail.strict_scanned g t).ticks, Trail.scanned_cons]
    exact .cons n _ "Lazy" (ih _).tick

theorem Lists.flattened {α : Type} {d : Trail (Shown α)} {shown : List (Shown α)}
    {parts : List (List α)} (h : Lists d shown)
    (hp : List.Forall₂ (fun S values => Lists S.trail values) shown parts) :
    Lists (Trail.flattened d) parts.flatten := by
  induction h generalizing parts with
  | nil n =>
    cases hp
    rw [Trail.strict_flattened.ticks, Trail.flattened_nil]
    exact .nil n
  | cons n S form _ ih =>
    cases hp with
    | cons hS hp =>
      rw [Trail.strict_flattened.ticks, Trail.flattened_cons]
      exact ((hS.inside.append (ih hp).tick).tick).ticks n

/-- All outputs of a step with any number of them, from one state to the next. -/
def scanOutputs {α β τ : Type} (g : τ × α → List β × τ) : τ → List α → List β
  | _, [] => []
  | t, x :: rest => (g (t, x)).1 ++ scanOutputs g (g (t, x)).2 rest

theorem scanOutputs_eq {α β τ : Type} (g : τ × α → List β × τ) (t : τ) (values : List α) :
    scanOutputs g t values = (scanValues g t values).flatten := by
  induction values generalizing t with
  | nil => rfl
  | cons x rest ih => rw [scanOutputs, scanValues, List.flatten_cons, ih]

theorem Lists.stateScanned {α β τ : Type} (g : τ × α → List β × τ) (t : τ) {d : Trail α}
    {values : List α} (h : Lists d values) :
    Lists (Make.stateScanned g t d).trail (scanOutputs g t values) := by
  have hparts : ∀ (values : List α) (t : τ), List.Forall₂ (fun S part => Lists S.trail part)
      (scanValues (fun x => (Shown.ofList (g x).1, (g x).2)) t values) (scanValues g t values) := by
    intro values
    induction values with
    | nil => exact fun _ => .nil
    | cons x rest ih => exact fun t => .cons (Lists.listed _) (ih _)
  rw [scanOutputs_eq]
  exact ((h.scanned _ t).tick.flattened (hparts values t)).tick

theorem Lists.terminated {α : Type} {s : Shown α} {values : List α} (h : Lists s.trail values) :
    Lists s.terminated.trail (values.map some ++ [none]) :=
  (h.mapped some).tick.chained (cons_front none "Empty" (.nil 0))

section FlatMap
variable {ι : Type} [Basis ι] {a b : Kind ι} {w : World ι}

def Shown.flatMapped {α β : Type} (g : α → Shown β) (S : Shown α) : Shown β :=
  .deferred (.flattened (Shown.deferred (.mapped g S.trail)).trail)

theorem Plan.flatMap_means {input : Plan a} {T : Shown (Value a)} (hT : input.Means w T)
    {f : El a → Plan b} {g : Value a → Shown (Value b)} (note : El a → Option Note)
    (hf : ∀ w', w <+: w' → ∀ x v, El.reading a w' x v → (f x).Means w' (g v)) :
    (input.flatMap f note).Means w (T.flatMapped g) :=
  ⟨_, ⟨T, g, hT, hf, rfl⟩, rfl⟩

theorem Lists.flatMapped {α β : Type} {S : Shown α} {values : List α} (h : Lists S.trail values)
    {g : α → Shown β} {out : α → List β} (hg : ∀ v, Lists (g v).trail (out v)) :
    Lists (S.flatMapped g).trail (values.flatMap out) := by
  have hp : List.Forall₂ (fun S values => Lists S.trail values) (values.map g) (values.map out) :=
    List.forall₂_map_left_iff.2 (List.forall₂_map_right_iff.2 (List.forall₂_same.2 fun v _ => hg v))
  rw [List.flatMap_def]
  exact ((h.mapped g).tick.flattened hp).tick

theorem Plan.ofList_means {i : ι} (elements : List (Basis.Carrier i)) (w : World ι) :
    (Plan.ofList elements : Plan (.base i)).Means w (.ofList elements) :=
  Sequence.reading_ofList (List.forall₂_same.2 fun _ _ => ⟨trivial, rfl⟩)

end FlatMap

section Collecting
variable {ι : Type} [Basis ι]

theorem Lists.drains {α τ : Type} (g : τ → α → τ) {d : Trail α} {values : List α}
    (h : Lists d values) (t : τ) :
    Drains (fun t v => .yield (g t v)) t d (values.foldl g t) := by
  induction h generalizing t with
  | nil n => exact .nil t n
  | cons n x form _ ih => exact .yield n rfl (ih (g t x))

theorem drains_fold_iff {α τ : Type} {d : Trail α} {φ : τ → α → τ} {t u : τ} :
    Drains (fun t v => .yield (φ t v)) t d u ↔ ∃ values, Lists d values ∧ values.foldl φ t = u := by
  constructor
  · intro h
    induction h with
    | nil t n => exact ⟨[], .nil n, rfl⟩
    | done n h => cases h
    | @yield t t' u p d n h _ ih =>
      obtain rfl : φ t p.1 = t' := ForInStep.yield.inj h
      obtain ⟨values, hvalues, rfl⟩ := ih
      exact ⟨p.1 :: values, .cons n p.1 p.2 hvalues, rfl⟩
  · rintro ⟨values, h, rfl⟩
    exact h.drains φ t

/-- The list of all elements of what a plan makes in an empty store. -/
def Plan.Collects {k : Kind ι} (p : Plan k) (elements : List (El k)) : Prop :=
  ∃ st, Gives (fun fuel => do Sequence.toList fuel (← Run.build p)) Store.empty elements st

theorem Plan.Collects.unique {k : Kind ι} {p : Plan k} {xs ys : List (El k)}
    (hx : p.Collects xs) (hy : p.Collects ys) : xs = ys := by
  obtain ⟨st, hx⟩ := hx
  obtain ⟨st', hy⟩ := hy
  exact (hx.unique hy).1

theorem Drains.lists {α : Type} {d : Trail α} {seen all : List α}
    (h : Drains (fun seen v => .yield (seen ++ [v])) seen d all) :
    ∃ values, Lists d values ∧ all = seen ++ values := by
  induction h with
  | nil seen n => exact ⟨[], .nil n, (List.append_nil seen).symm⟩
  | done n h => cases h
  | @yield seen seen' all p d n h _ ih =>
    obtain ⟨values, hvalues, rfl⟩ := ih
    obtain rfl : seen ++ [p.1] = seen' := ForInStep.yield.inj h
    exact ⟨p.1 :: values, .cons n p.1 p.2 hvalues, by simp⟩

theorem Sequence.lists_of_toList {k : Kind ι} {st st' : Store ι} {w : World ι} {s : Sequence k}
    {fuel : ℕ} {elements : List (El k)} (hst : st.Means w) (hs : Sequence.Formed w s)
    (h : Sequence.toList fuel s st = .ok (elements, st')) :
    ∃ values w', Lists (Sequence.trail w s) values ∧ st.Leads w st' w' ∧
      (El.reading k).list w' elements values := by
  obtain ⟨seen, st₁, hseen, h⟩ := Run.bind_eq_ok.1 h
  obtain ⟨rfl, rfl⟩ := Run.pure_eq_ok.1 h
  obtain ⟨w', u, hl, hdrains, hread⟩ :=
    traverse_sound lasting_collected step_collected hst hs .nil hseen
  obtain ⟨values, hvalues, hall⟩ := hdrains.lists
  rw [List.nil_append] at hall
  exact ⟨values, w', hvalues, hl, hall ▸ hread⟩

theorem El.list_reading_base {i : ι} {w : World ι} {xs : List (El (.base i : Kind ι))}
    {values : List (Value (.base i : Kind ι))} :
    (El.reading (.base i)).list w xs values ↔ xs = values := by
  have hplain : (El.reading (.base i) : Reading ι _ _) w = Eq := by
    funext x v
    exact propext ⟨And.right, fun h => ⟨trivial, h⟩⟩
  rw [Reading.list, hplain, List.forall₂_eq_eq_eq]

theorem Lists.collects {k : Kind ι} {st : Store ι} {w : World ι} {s : Sequence k}
    {values : List (Value k)} (h : Lists (Sequence.trail w s) values) (hst : st.Means w)
    (hquiet : ∀ id, ¬ st.Running id) (hs : Sequence.Formed w s) :
    ∃ elements st' w', Gives (fun fuel => Sequence.toList fuel s) st elements st' ∧
      st.Leads w st' w' ∧ (El.reading k).list w' elements values := by
  have hfold := h.drains (fun seen v => seen ++ [v]) []
  rw [List.foldl_append_eq_append, ← List.flatMap_def, List.flatMap_singleton',
    List.nil_append] at hfold
  obtain ⟨seen, st', w', hgives, hl, hseen⟩ :=
    traverse_returns lasting_collected step_collected hst hquiet hs .nil hfold
  exact ⟨seen.toList, st', w', hgives.bind (gives_of_eq rfl), hl, hseen⟩

theorem Plan.Means.collects {i : ι} {p : Plan (.base i)} {S : Shown (Value (.base i))}
    (h : p.Means [] S) {values : List (Value (.base i))} (hl : Lists S.trail values) :
    p.Collects values := by
  have hquiet := Store.not_running_empty (ι := ι) true #[]
  obtain ⟨w, hleads, hs, hshown⟩ := Plan.build_means h (Store.means_empty true #[])
  have hlists : Lists (Sequence.trail w _) values := (congrArg Shown.trail hshown) ▸ hl
  obtain ⟨elements, st, w', hgives, -, hread⟩ :=
    hlists.collects hleads.means (hleads.quiet hquiet) hs
  obtain rfl := El.list_reading_base.1 hread
  exact ⟨st, (gives_of_eq rfl).bind hgives⟩

end Collecting

end MemoSequence
