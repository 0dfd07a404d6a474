import MemoSequence.Proofs.Threading
import MemoSequence.Proofs.Yields
set_option autoImplicit false

namespace MemoSequence
open Stream' (WSeq)
open Stream'.WSeq (think)
open Sequence (Formed elements trail)

section Values
variable {α β τ : Type}

/-- At each position stands what is put out by the step that the elements before it have led to. -/
def PutOut (g : τ × α → β × τ) (t : τ) (values : List α) (outs : List β) : Prop :=
  ∀ i, outs[i]? = values[i]?.map fun x => (g (scanState g t (values.take i), x)).1

theorem getElem?_scanValues (g : τ × α → β × τ) (t : τ) (values : List α) (i : ℕ) :
    (scanValues g t values)[i]? = values[i]?.map fun x => (g (scanState g t (values.take i), x)).1 := by
  induction values generalizing t i with
  | nil => rfl
  | cons x rest ih =>
    cases i with
    | zero => rfl
    | succ i => exact ih _ i

theorem putOut_iff {g : τ × α → β × τ} {t : τ} {values : List α} {outs : List β} :
    PutOut g t values outs ↔ outs = scanValues g t values := by
  constructor
  · intro h
    exact List.ext_getElem? fun i => (h i).trans (getElem?_scanValues g t values i).symm
  · rintro rfl
    exact getElem?_scanValues g t values

theorem PutOut.length_eq {g : τ × α → β × τ} {t : τ} {values : List α} {outs : List β}
    (h : PutOut g t values outs) : outs.length = values.length := by
  rw [putOut_iff.1 h, length_scanValues]

def numbering (x : ℕ × α) : (ℕ × α) × ℕ := (x, x.1 + 1)

theorem scanState_numbering (n : ℕ) (values : List α) :
    scanState numbering n values = n + values.length := by
  induction values generalizing n with
  | nil => rfl
  | cons x rest ih =>
    have hrest := ih (n + 1)
    rw [List.length_cons, Nat.add_comm rest.length, ← Nat.add_assoc]
    exact hrest

theorem putOut_numbering {values : List α} {outs : List (ℕ × α)} :
    PutOut numbering 0 values outs ↔ ∀ i : ℕ, outs[i]? = values[i]?.map fun x => (i, x) := by
  refine forall_congr' fun i => ?_
  obtain hi | hi := Nat.lt_or_ge i values.length
  · rw [List.getElem?_eq_getElem hi, scanState_numbering, List.length_take_of_le hi.le, Nat.zero_add]
    rfl
  · rw [List.getElem?_eq_none hi]
    rfl

theorem join_afterFirst (separator : String) (texts : List String) :
    String.join (afterFirst (separator ++ ·) texts) = separator.intercalate texts := by
  apply String.toList_injective
  have hparts : (afterFirst (separator ++ ·) texts).map String.toList =
      afterFirst (separator.toList ++ ·) (texts.map String.toList) := by
    cases texts with
    | nil => rfl
    | cons first rest => simp [afterFirst, Function.comp_def]
  rw [String.toList_join, List.flatMap_def, hparts, flatten_afterFirst,
    String.toList_intercalate]

end Values

section WeakSequences
variable {α β τ : Type} {d : Trail α}

/-- Position by position: as many elements as one sequence has the other one has too, and its first ones go
with the first ones there. -/
structure Aligned (d : WSeq α) (P : List α → List β → Prop) (e : WSeq β) : Prop where
  length : ∀ c, HasLength d c → HasLength e c
  starts : ∀ n outs, Starts e n outs ↔ ∃ values, Starts d n values ∧ P values outs

theorem starts_scanned (g : τ × α → β × τ) (t : τ) {n : ℕ} {outs : List β} :
    Starts (Trail.scanned g t d).elements n outs ↔
      ∃ values, Starts d.elements n values ∧ PutOut g t values outs := by
  simp only [putOut_iff]
  induction n generalizing d t outs with
  | zero => simp [starts_zero, scanValues]
  | succ n ih =>
    have hstrict := Trail.strict_scanned g t
    obtain ⟨i, _ | ⟨⟨x, form⟩, rest⟩, rfl⟩ | hd := arrives_or_frontless d
    · have hnil : (Trail.scanned g t (think^[i] .nil)).elements ~ʷ .nil := by
        rw [hstrict.ticks, Trail.scanned_nil]
        exact Trail.elements_ticks_nil i
      simp [front, starts_of_nil hnil, starts_of_nil (Trail.elements_ticks_nil i), scanValues]
    · have hcons : (Trail.scanned g t (think^[i] (.cons (x, form) rest))).elements ~ʷ
          .cons (g (t, x)).1 (Trail.scanned g (g (t, x)).2 rest).elements := by
        rw [hstrict.ticks, Trail.scanned_cons]
        exact (Trail.elements_ticks_cons i _ _ _).trans
          (WSeq.cons_congr _ (by rw [Trail.elements_think]; exact WSeq.think_equiv _))
      simp only [front, starts_of_cons hcons, starts_of_cons (Trail.elements_ticks_cons i x form rest), ih]
      constructor
      · rintro ⟨more, rfl, values, hvalues, rfl⟩
        exact ⟨x :: values, ⟨values, rfl, hvalues⟩, rfl⟩
      · rintro ⟨_, ⟨values, rfl, hvalues⟩, rfl⟩
        exact ⟨_, rfl, values, hvalues, rfl⟩
    · refine iff_of_false (fun h => ?_) ?_
      · obtain ⟨m, r, hr⟩ := h.front
        exact hstrict.frontless hd m ⟨r, hr⟩
      · rintro ⟨values, h, -⟩
        obtain ⟨m, r, hr⟩ := h.front
        exact hd m ⟨r, hr⟩

theorem starts_listed (values : List α) : Starts (WSeq.ofList values) (values.length + 1) values := by
  have h := starts_ofList values (values.length + 1)
  rwa [List.take_of_length_le (Nat.le_succ _)] at h

theorem lists_iff_starts {values : List α} :
    Lists d values ↔ Starts d.elements (values.length + 1) values := by
  constructor
  · exact fun h => (starts_listed values).congr h.equiv_ofList.symm
  · intro h
    induction values generalizing d with
    | nil =>
      cases h with
      | ended _ hnil =>
        obtain ⟨n, rfl⟩ := Trail.elements_equiv_nil.1 hnil
        exact .nil n
    | cons x rest ih =>
      cases h with
      | more hcons hmore =>
        obtain ⟨n, form, e, rfl, he⟩ := Trail.elements_equiv_cons.1 hcons
        exact .cons n x form (ih (hmore.congr he.symm))

theorem lists_scanned_iff (g : τ × α → β × τ) (t : τ) {outs : List β} :
    Lists (Trail.scanned g t d) outs ↔ ∃ values, Lists d values ∧ outs = scanValues g t values := by
  constructor
  · intro h
    obtain ⟨values, hvalues, houts⟩ := (starts_scanned g t).1 (lists_iff_starts.1 h)
    rw [houts.length_eq] at hvalues
    exact ⟨values, lists_iff_starts.2 hvalues, putOut_iff.1 houts⟩
  · rintro ⟨values, hvalues, rfl⟩
    exact hvalues.scanned g t

theorem HasLength.scanned (g : τ × α → β × τ) (t : τ) {c : ℕ∞} (h : HasLength d.elements c) :
    HasLength (Trail.scanned g t d).elements c := by
  cases h with
  | finite values h =>
    have hend : (WSeq.ofList values).append (Trail.elements (.nil : Trail α)) = .ofList values := by
      rw [Trail.elements_nil, WSeq.append_nil]
    have hscan := Trail.scanned_append g t values (hend ▸ h)
    rw [Trail.scanned_nil, Trail.elements_nil, WSeq.append_nil] at hscan
    exact length_scanValues g t values ▸ .finite _ hscan
  | endless h =>
    refine .endless fun n => ?_
    obtain ⟨values, rest, hlength, hd⟩ := h n
    obtain ⟨e, rfl⟩ := Trail.exists_elements rest
    exact ⟨scanValues g t values, _, (length_scanValues g t values).trans hlength,
      Trail.scanned_append g t values hd⟩

theorem aligned_scanned (g : τ × α → β × τ) (t : τ) (d : Trail α) :
    Aligned d.elements (PutOut g t) (Trail.scanned g t d).elements where
  length _ h := h.scanned g t
  starts _ _ := starts_scanned g t

end WeakSequences

variable {ι : Type} [Basis ι] {a b : Kind ι} {st : Store ι} {w : World ι}

/-- The first step of a chain, with what it stands for: a step is a function in the state that it is in, and
the next one is the same function in the next state. -/
structure Chained {σ τ : Type} (R : Reading ι σ τ) (w : World ι) (state : σ) (start : τ)
    (step : Fn (σ × El a) (El b × σ)) (g : τ × Value a → Value b × τ) : Prop where
  lasting : R.Lasting
  state : R w state start
  step : (R.prod (El.reading a)).fn ((El.reading b).prod R) w step.apply g

theorem Chained.means {σ τ : Type} {R : Reading ι σ τ} {state : σ} {start : τ}
    {step : Fn (σ × El a) (El b × σ)} {g : τ × Value a → Value b × τ} {input : Plan a}
    {S : Shown (Value a)} (h : Chained R w state start step g) (hS : input.Means w S) :
    (Plan.scan input state step).Means w (.deferred (.scanned g start S.trail)) :=
  ⟨S, τ, R, start, g, h.lasting, hS, h.state, h.step, rfl⟩

theorem chained_numbering :
    Chained (b := .pair .nat a) (.same ℕ) w 0 0 (.silent fun (index, x) => ((index, x), index + 1))
      (numbering : ℕ × Value a → Value (.pair .nat a) × ℕ) where
  lasting := Reading.lasting_same ℕ
  state := rfl
  step := by
    rintro w' - ⟨index, x⟩ ⟨_, v⟩ ⟨rfl, hx⟩
    exact ⟨⟨⟨trivial, hx.1⟩, Prod.ext rfl hx.2⟩, rfl⟩

/-- What scanning comes to; `a` is the kind of the elements, and `b` that of the outputs. -/
structure Scans (st : Store ι) (w : World ι) (a b : Kind ι) : Prop where
  outputs : ∀ {σ τ : Type} {R : Reading ι σ τ} {state : σ} {start : τ}
    {step : Fn (σ × El a) (El b × σ)} {g : τ × Value a → Value b × τ} {s : Sequence a},
    Chained R w state start step g → Formed w s →
    ∃ d, (Plan.scan (.given s) state step).HasElements st w d ∧ Aligned (elements w s) (PutOut g start) d
  entries : ∀ {s : Sequence a}, Formed w s →
    ∃ d, (Plan.entries (.given s)).HasElements st w d ∧
      Aligned (elements w s) (fun values outs => ∀ i : ℕ, outs[i]? = values[i]?.map fun v => (i, v)) d

theorem scans (hst : st.Means w) (a b : Kind ι) : Scans st w a b where
  outputs h hs :=
    ⟨_, (h.means (given_means hs)).hasElements hst (Shown.elements_deferred _), aligned_scanned _ _ _⟩
  entries {s} hs := by
    have haligned := aligned_scanned numbering 0 (trail w s)
    rw [show PutOut numbering 0 = _ from funext₂ fun _ _ => propext putOut_numbering] at haligned
    exact ⟨_, (chained_numbering.means (given_means hs)).hasElements hst (Shown.elements_deferred _),
      haligned⟩

section Joining
variable {st : Store Atom} {w : World Atom} {s t : Sequence (.text : Kind Atom)}

def separating (separator : String) (x : Bool × String) : String × Bool :=
  (if x.1 then x.2 else separator ++ x.2, false)

theorem chained_separating (separator : String) :
    Chained (a := .text) (b := .text) (.same Bool) w true true
      (.silent fun (first, piece) => (if first then piece else separator ++ piece, false))
      (separating separator) where
  lasting := Reading.lasting_same Bool
  state := rfl
  step := by
    rintro w' - ⟨first, piece⟩ ⟨_, _⟩ ⟨rfl, -, rfl⟩
    exact ⟨⟨trivial, rfl⟩, rfl⟩

theorem step_joining :
    (Reading.same String).step w
      (fun joined (piece : El .text) => do
        return .yield (← Run.call (.silent fun (joined, piece) => joined ++ piece) (joined, piece)))
      (fun joined piece => .yield (joined ++ piece)) := by
  rintro w' - joined _ piece _ rfl ⟨-, rfl⟩
  exact ⟨_, Run.notes_call_bind (Run.notes_pure _), rfl⟩

/-- Exactly finite sequences are joined, and then it is their texts. -/
theorem join_adequate (hst : st.Means w) (hs : Formed w s) (separator : String) :
    Adequate (fun fuel => Sequence.join separator fuel s) st w (.same String)
      fun text => ∃ texts, Lists (trail w s) texts ∧ separator.intercalate texts = text := by
  have hpieces : (Plan.separatedBy separator (.given s)).Means w
      (.deferred (.scanned (separating separator) true (trail w s))) :=
    (chained_separating separator).means (given_means hs)
  have hdrains : Adequate (fun fuel => Sequence.join separator fuel s) st w (.same String)
      (Drains (fun joined piece => .yield (joined ++ piece)) ""
        (Shown.deferred (.scanned (separating separator) true (trail w s))).trail) :=
    Plan.built_adequate hpieces hst fun hl ⟨hs, hshown⟩ =>
      hshown ▸ traverse_adequate (Reading.lasting_same String) step_joining hl.means hs rfl
  refine hdrains.congr fun text => drains_fold_iff.trans ?_
  have hjoin : ∀ texts : List String, (scanValues (separating separator) true texts).foldl (· ++ ·) "" =
      separator.intercalate texts := fun texts => by
    rw [← join_afterFirst, ← scanValues_afterFirst]
    rfl
  constructor
  · rintro ⟨pieces, hlists, rfl⟩
    obtain ⟨texts, htexts, rfl⟩ := (lists_scanned_iff _ _).1 ((lists_ticks_iff 1).1 hlists)
    exact ⟨texts, htexts, (hjoin texts).symm⟩
  · rintro ⟨texts, htexts, rfl⟩
    exact ⟨_, (htexts.scanned (separating separator) true).tick, hjoin texts⟩

structure Joins (st : Store Atom) (w : World Atom) : Prop where
  joined : ∀ {s : Sequence (.text : Kind Atom)}, Formed w s → ∀ separator,
    Adequate (fun fuel => Sequence.join separator fuel s) st w (.same String)
      fun text => ∃ texts, Lists (trail w s) texts ∧ separator.intercalate texts = text
  seam : ∀ {s t : Sequence (.text : Kind Atom)}, Formed w s → Formed w t → ∀ {xs ys : List String},
    (∃ fuel st', Sequence.toList fuel s st = .ok (xs, st')) →
    (∃ fuel st', Sequence.toList fuel t st = .ok (ys, st')) → xs ≠ [] → ys ≠ [] → ∀ separator,
    ∃ a st₁ b st₂ st₃, Gives (fun fuel => Sequence.join separator fuel s) st a st₁ ∧
      Gives (fun fuel => Sequence.join separator fuel t) st b st₂ ∧
      Gives (fun fuel => do
        Sequence.join separator fuel (← Run.build (.append (.given s) (.given t)))) st
        (a ++ separator ++ b) st₃
  none : ∀ {s : Sequence (.text : Kind Atom)}, Formed w s →
    (∃ fuel st', Sequence.toList fuel s st = .ok ([], st')) → ∀ separator,
    ∃ st', Gives (fun fuel => Sequence.join separator fuel s) st "" st'

theorem texts_of_toList (hst : st.Means w) (hs : Formed w s) {xs : List String}
    (h : ∃ fuel st', Sequence.toList fuel s st = .ok (xs, st')) : Lists (trail w s) xs := by
  obtain ⟨fuel, st', hrun⟩ := h
  obtain ⟨texts, w', hlists, -, hread⟩ := Sequence.lists_of_toList hst hs hrun
  exact El.list_reading_base.1 hread ▸ hlists

theorem join_gives (hst : st.Means w) (hquiet : ∀ id, ¬ st.Running id) (hs : Formed w s) {xs : List String}
    (h : Lists (trail w s) xs) (separator : String) :
    ∃ st', Gives (fun fuel => Sequence.join separator fuel s) st (separator.intercalate xs) st' := by
  obtain ⟨_, st', w', hgives, -, rfl⟩ :=
    (join_adequate hst hs separator).gives hquiet ⟨xs, h, rfl⟩
  exact ⟨st', hgives⟩

theorem join_seam (hst : st.Means w) (hquiet : ∀ id, ¬ st.Running id) (hs : Formed w s) (ht : Formed w t)
    {xs ys : List String} (hxs : Lists (trail w s) xs) (hys : Lists (trail w t) ys) (hx : xs ≠ [])
    (hy : ys ≠ []) (separator : String) :
    ∃ st', Gives (fun fuel => do
        Sequence.join separator fuel (← Run.build (.append (.given s) (.given t)))) st
      (separator.intercalate xs ++ separator ++ separator.intercalate ys) st' := by
  have helements : elements w (Node.concat s t) ~ʷ .ofList (xs ++ ys) := by
    rw [Sequence.elements_concat w s ht, ofList_append]
    exact append_congr hxs.equiv_ofList hys.equiv_ofList
  have hlists : Lists (trail w (Node.concat s t)) (xs ++ ys) :=
    lists_iff_starts.2 ((starts_listed _).congr helements.symm)
  obtain ⟨st', hgives⟩ := join_gives hst hquiet (Node.Formed.concat hs ht) hlists separator
  rw [String.intercalate_append_of_ne_nil hx hy] at hgives
  exact ⟨st', (gives_of_eq rfl).bind hgives⟩

theorem joins (hst : st.Means w) (hquiet : ∀ id, ¬ st.Running id) : Joins st w where
  joined hs separator := join_adequate hst hs separator
  seam hs ht _ _ hxs hys hx hy separator := by
    have hxs := texts_of_toList hst hs hxs
    have hys := texts_of_toList hst ht hys
    obtain ⟨st₁, ha⟩ := join_gives hst hquiet hs hxs separator
    obtain ⟨st₂, hb⟩ := join_gives hst hquiet ht hys separator
    obtain ⟨st₃, hab⟩ := join_seam hst hquiet hs ht hxs hys hx hy separator
    exact ⟨_, st₁, _, st₂, st₃, ha, hb, hab⟩
  none hs h separator := join_gives hst hquiet hs (texts_of_toList hst hs h) separator

end Joining

/-- After every run of a program a scan keeps positions and length, and the joined text of a sequence has the
separator between neighbours and nowhere else. -/
theorem scanning_lawful {program : List (Step Atom)} {fuel : ℕ} {env : Env Atom} {st : Store Atom}
    (h : Program.run fuel program [] Store.empty = .ok (env, st)) :
    ∃ w : World Atom, st.Means w ∧ (∀ id, ¬ st.Running id) ∧ (∀ r ∈ env, El.Formed w r.1 r.2) ∧
      (∀ a b, Scans st w a b) ∧ Joins st w := by
  obtain ⟨vs, w, -, hkept⟩ := Program.run_keeps program kept_empty h
  exact ⟨w, hkept.means, hkept.quiet, formed_of_reads hkept.reads, scans hkept.means,
    joins hkept.means hkept.quiet⟩

def spacing : List (Step Atom) :=
  have text : (El.reading (.text : Kind Atom)).Plain := El.plain_reading trivial
  have comma : Uniform (.noted ((Reading.same Bool).prod (El.reading (.text : Kind Atom)))
      ((El.reading .text).prod (Reading.same Bool))) :=
    .fn ((Reading.plain_same Bool).prod text) (text.prod (Reading.plain_same Bool))
      (.silent fun p : Bool × String => (if p.1 then p.2 else "," ++ p.2, false))
  [.make (k := .text) (.fromVec (.plain text.list ["a", ""])) [],
   .make (k := .text) (.defer none Make.empty.producer) [],
   .make (k := .text) (.fromVec (.plain text.list ["b"])) [],
   .make (k := .text) (.concatAll [0, 1, 2]) [0, 1, 2],
   .make (k := .text) (.scan (a := .text) (.same Bool) (Reading.lasting_same Bool) 0
     (.plain (Reading.plain_same Bool) true) comma) [3],
   .make (k := .pair .nat .text) (.entries 0) [4],
   .next .text 4]

instance : DecidableEq (Glance (.pair .nat .text : Kind Atom)) :=
  inferInstanceAs (DecidableEq (ℕ × String))

theorem spacing_lawful :
    Program.Answers (k := .pair .nat .text) spacing .toVec 5 [] [(0, "a"), (1, ","), (2, ",b")] ∧
      ∃ env st, Program.run 20 spacing [] Store.empty = .ok (env, st) ∧
        ∃ w : World Atom, st.Means w ∧ (∀ id, ¬ st.Running id) ∧ (∀ r ∈ env, El.Formed w r.1 r.2) ∧
          (∀ a b, Scans st w a b) ∧ Joins st w := by
  obtain ⟨env, st, hrun⟩ : ∃ env st, Program.run 20 spacing [] Store.empty = .ok (env, st) :=
    Program.run_of_isOk (by decide +kernel)
  exact ⟨⟨30, by decide +kernel⟩, env, st, hrun, scanning_lawful hrun⟩

end MemoSequence
