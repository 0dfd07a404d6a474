import MemoSequence.Proofs.Moments
import MemoSequence.Proofs.Ranks
set_option autoImplicit false

/-!
# Runs side by side

One program is run in two stores. A pairing says how the stores are related at a moment, given the requests
so far, and an index of it what is known by then, above all which cells may be spoken of. A request, a note
and a new cell keep stores related; what becomes of a cell that is forced is left to the pairing. Then two
runs that begin in related stores come to the same end there, they make the same requests, their stores are
related at every moment, and every cell goes one way only.
-/
namespace MemoSequence
open Sequence (Formed)

variable {ι : Type} [Basis ι]

/-- The same requests in two runs, and `P` for the stores at each moment and the requests up to there. -/
inductive Matched (P : List (Request ι) → Store ι → Store ι → Prop) :
    List (Request ι) → List (Moment ι) → List (Moment ι) → Prop
  | nil {asked : List (Request ι)} : Matched P asked [] []
  | store {asked : List (Request ι)} {st₀ st : Store ι} {l₀ l : List (Moment ι)} (h : P asked st₀ st)
      (hl : Matched P asked l₀ l) : Matched P asked (.store st₀ :: l₀) (.store st :: l)
  | request {asked : List (Request ι)} {r : Request ι} {l₀ l : List (Moment ι)}
      (hl : Matched P (asked ++ [r]) l₀ l) : Matched P asked (.request r :: l₀) (.request r :: l)

theorem Matched.append {P : List (Request ι) → Store ι → Store ι → Prop} {asked : List (Request ι)}
    {l₀ l l₀' l' : List (Moment ι)} (h : Matched P asked l₀ l)
    (h' : Matched P (asked ++ requests l) l₀' l') : Matched P asked (l₀ ++ l₀') (l ++ l') := by
  induction h with
  | nil => simpa using h'
  | store h _ ih => exact .store h (ih h')
  | request _ ih => exact .request (ih (by simpa using h'))

structure Pairing (ι : Type) [Basis ι] where
  Index : Type 1
  Grown : Index → Index → Prop
  refl : ∀ b, Grown b b
  trans : ∀ {b b' b''}, Grown b b' → Grown b' b'' → Grown b b''
  /-- The world has the cells that may be spoken of. -/
  Covered : Index → World ι → Prop
  covered : ∀ {b b' w}, Grown b b' → Covered b' w → Covered b w
  exists_covered : ∀ b, ∃ w, Covered b w
  Related : Index → List (Request ι) → Store ι → Store ι → Prop
  keeps : ∀ {b asked st₀ st}, Related b asked st₀ st → st.keeps = true
  /-- What can be told of the stores at any moment. -/
  Seen : List (Request ι) → Store ι → Store ι → Prop
  seen : ∀ {b asked st₀ st}, Related b asked st₀ st → Seen asked st₀ st
  /-- The ways in which a run may halt. -/
  Allowed : Halt → Prop
  outOfFuel : Allowed .outOfFuel
  request : ∀ {b asked st₀ st} (r : Request ι), Related b asked st₀ st → Related b (asked ++ [r]) st₀ st
  write : ∀ {b asked st₀ st} (note : Option Note), Related b asked st₀ st →
    Related b asked (st₀.write note) (st.write note)
  alloc : ∀ {b asked st₀ st} {k : Kind ι} {p : Plan k}, Related b asked st₀ st →
    (∀ w, Covered b w → p.Meaningful w) → (st₀.alloc p).1 = (st.alloc p).1 ∧
      ∃ b', Grown b b' ∧ Related b' asked (st₀.alloc p).2 (st.alloc p).2 ∧
        ∀ w, Covered b' w → Formed w (st.alloc p).1

namespace Pairing
variable {J : Pairing ι} {b b' : J.Index} {α β : Type} {k a : Kind ι} {asked : List (Request ι)}

section Suffice
variable {P P' Q : World ι → Prop}

/-- With the cells that may be spoken of there is all that `P` asks for. -/
def Suffice (J : Pairing ι) (b : J.Index) (P : World ι → Prop) : Prop := ∀ w, J.Covered b w → P w

theorem Suffice.grown (h : J.Suffice b P) (hb : J.Grown b b') : J.Suffice b' P :=
  fun w hw => h w (J.covered hb hw)

theorem Suffice.imp (h : J.Suffice b P) (hp : ∀ w, P w → P' w) : J.Suffice b P' :=
  fun w hw => hp w (h w hw)

theorem Suffice.imp₂ (h : J.Suffice b P) (h' : J.Suffice b P') (hp : ∀ w, P w → P' w → Q w) :
    J.Suffice b Q := fun w hw => hp w (h w hw) (h' w hw)

end Suffice

def last : Except Halt (α × Store ι) → List (Store ι)
  | .ok (_, st) => [st]
  | .error _ => []

/-- Both runs give the same answer and leave stores related by `R`, or they halt in the same way. -/
inductive Ends (J : Pairing ι) (R : α → Store ι → Store ι → Prop) :
    Except Halt (α × Store ι) → Except Halt (α × Store ι) → Prop
  | error {why : Halt} (h : J.Allowed why) : Ends J R (.error why) (.error why)
  | ok {x : α} {st₀ st : Store ι} (h : R x st₀ st) : Ends J R (.ok (x, st₀)) (.ok (x, st))

/-- Moments and ends of two runs, the second of which begins in `st`, after the requests `asked`. -/
structure Abreast (J : Pairing ι) (R : α → List (Request ι) → Store ι → Store ι → Prop)
    (asked : List (Request ι)) (st : Store ι) (l₀ l : List (Moment ι))
    (r₀ r : Except Halt (α × Store ι)) : Prop where
  seen : Matched J.Seen asked l₀ l
  advances : (st :: stores l ++ last r).Pairwise Store.Advances
  ends : J.Ends (fun x => R x (asked ++ requests l)) r₀ r

def After (J : Pairing ι) (b : J.Index) (P : α → World ι → Prop) (x : α) (asked : List (Request ι))
    (st₀ st : Store ι) : Prop :=
  ∃ b', J.Grown b b' ∧ J.Related b' asked st₀ st ∧ J.Suffice b' (P x)

/-- From related stores the run goes side by side. -/
def Joint (J : Pairing ι) (b : J.Index) (m : Run ι α) (seen : Moments ι) (P : α → World ι → Prop) :
    Prop :=
  ∀ ⦃asked st₀ st⦄, J.Related b asked st₀ st →
    J.Abreast (J.After b P) asked st (seen st₀) (seen st) (m st₀) (m st)

section Abreast
variable {R : α → List (Request ι) → Store ι → Store ι → Prop}
  {R' : β → List (Request ι) → Store ι → Store ι → Prop} {st₀ st st₀' st' : Store ι}

theorem pairwise_splice {l l' : List (Store ι)} (h : (l ++ [st]).Pairwise Store.Advances)
    (h' : (st :: l').Pairwise Store.Advances) : (l ++ l').Pairwise Store.Advances := by
  obtain ⟨hl, -, hst⟩ := List.pairwise_append.1 h
  obtain ⟨hst', hl'⟩ := List.pairwise_cons.1 h'
  refine List.pairwise_append.2 ⟨hl, hl', fun x hx y hy => ?_⟩
  exact (hst x hx st (List.mem_singleton.2 rfl)).trans (hst' y hy)

theorem abreast_ok {x : α} (hst : st.Advances st') (h : R x asked st₀' st') :
    J.Abreast R asked st [] [] (.ok (x, st₀')) (.ok (x, st')) where
  seen := .nil
  advances := by simpa [last] using hst
  ends := .ok (by simpa using h)

theorem abreast_error {why : Halt} (h : J.Allowed why) :
    J.Abreast R asked st [] [] (.error why) (.error why) where
  seen := .nil
  advances := List.pairwise_singleton _ _
  ends := .error h

theorem Abreast.imp {R' : α → List (Request ι) → Store ι → Store ι → Prop} {l₀ l : List (Moment ι)}
    {r₀ r : Except Halt (α × Store ι)} (h : J.Abreast R asked st l₀ l r₀ r)
    (hR : ∀ x st₀' st', st.Advances st' → R x (asked ++ requests l) st₀' st' →
      R' x (asked ++ requests l) st₀' st') : J.Abreast R' asked st l₀ l r₀ r := by
  obtain ⟨hseen, hadvances, hends⟩ := h
  refine ⟨hseen, hadvances, ?_⟩
  cases hends with
  | error h => exact .error h
  | ok h => exact .ok (hR _ _ _ ((List.pairwise_cons.1 hadvances).1 _ (by simp [last])) h)

/-- Two runs that may differ, and what goes on with the answer they have in common. -/
theorem Abreast.bind {m₀ m : Run ι α} {f₀ f : α → Run ι β} {seen₀ seen : Moments ι}
    {more₀ more : α → Moments ι} (h : J.Abreast R asked st (seen₀ st₀) (seen st) (m₀ st₀) (m st))
    (hf : ∀ x st₀' st', m st = .ok (x, st') → st.Advances st' →
      R x (asked ++ requests (seen st)) st₀' st' →
      J.Abreast R' (asked ++ requests (seen st)) st' (more₀ x st₀') (more x st') (f₀ x st₀') (f x st')) :
    J.Abreast R' asked st (Run.during m₀ seen₀ more₀ st₀) (Run.during m seen more st)
      ((m₀ >>= f₀) st₀) ((m >>= f) st) := by
  obtain ⟨hseen, hadvances, hends⟩ := h
  change J.Abreast R' asked st (seen₀ st₀ ++ _) (seen st ++ _) (Run.bind m₀ f₀ st₀) (Run.bind m f st)
  unfold Run.bind
  generalize m₀ st₀ = r₀ at *
  generalize m st = r at *
  cases hends with
  | error h => exact ⟨by simpa using hseen, by simpa [last] using hadvances, .error h⟩
  | @ok x st₀' st' h =>
    have hst : st.Advances st' := (List.pairwise_cons.1 hadvances).1 st' (by simp [last])
    obtain ⟨hseen', hadvances', hends'⟩ := hf x st₀' st' rfl hst h
    refine ⟨hseen.append hseen', ?_, ?_⟩
    · simpa [List.append_assoc] using pairwise_splice hadvances hadvances'
    · simpa only [requests_append, List.append_assoc] using hends'

theorem during_none (m : Run ι α) (seen : Moments ι) :
    Run.during m seen (fun _ => .none) = seen := by
  funext st
  unfold Run.during
  cases m st <;> exact List.append_nil _

theorem Abreast.last {m₀ m : Run ι α} {f₀ f : α → Run ι β} {seen₀ seen : Moments ι}
    (h : J.Abreast R asked st (seen₀ st₀) (seen st) (m₀ st₀) (m st))
    (hf : ∀ x st₀' st', m st = .ok (x, st') → st.Advances st' →
      R x (asked ++ requests (seen st)) st₀' st' →
      J.Abreast R' (asked ++ requests (seen st)) st' [] [] (f₀ x st₀') (f x st')) :
    J.Abreast R' asked st (seen₀ st₀) (seen st) ((m₀ >>= f₀) st₀) ((m >>= f) st) := by
  rw [← during_none m₀ seen₀, ← during_none m seen]
  exact h.bind hf

theorem Abreast.enter {l₀ l : List (Moment ι)} {r₀ r : Except Halt (α × Store ι)}
    (h : J.Abreast R asked st l₀ l r₀ r) (hseen : J.Seen asked st₀ st) (hst : st'.Advances st) :
    J.Abreast R asked st' (.store st₀ :: l₀) (.store st :: l) r₀ r where
  seen := .store hseen h.seen
  advances := by
    refine List.pairwise_cons.2 ⟨?_, h.advances⟩
    rintro x (_ | ⟨_, hx⟩)
    · exact hst
    · exact hst.trans ((List.pairwise_cons.1 h.advances).1 x hx)
  ends := h.ends

theorem Abreast.request {l₀ l : List (Moment ι)} {r₀ r : Except Halt (α × Store ι)} {q : Request ι}
    (h : J.Abreast R (asked ++ [q]) st l₀ l r₀ r) :
    J.Abreast R asked st (.request q :: l₀) (.request q :: l) r₀ r where
  seen := .request h.seen
  advances := h.advances
  ends := by simpa using h.ends

end Abreast

section Closure
variable {P : α → World ι → Prop} {Q : β → World ι → Prop} {m : Run ι α} {f : α → Run ι β}
  {seen : Moments ι} {more : α → Moments ι}

theorem After.of_grown {x : α} {st₀ st : Store ι} (h : J.After b' P x asked st₀ st)
    (hb : J.Grown b b') : J.After b P x asked st₀ st := by
  obtain ⟨b'', hb', h, hp⟩ := h
  exact ⟨b'', J.trans hb hb', h, hp⟩

theorem joint_pure {x : α} (hp : J.Suffice b (P x)) : J.Joint b (pure x) .none P :=
  fun _ _ st h => abreast_ok (.refl st) ⟨b, J.refl b, h, hp⟩

theorem joint_halt {why : Halt} (h : J.Allowed why) : J.Joint b (Run.halt why : Run ι α) .none P :=
  fun _ _ _ _ => abreast_error h

theorem Joint.bind (hm : J.Joint b m seen P)
    (hf : ∀ x b', J.Grown b b' → J.Suffice b' (P x) → J.Joint b' (f x) (more x) Q) :
    J.Joint b (m >>= f) (Run.during m seen more) Q := by
  intro asked st₀ st h
  refine (hm h).bind fun x st₀' st' _ _ hafter => ?_
  obtain ⟨b', hb, h', hp⟩ := hafter
  exact (hf x b' hb hp h').imp fun _ _ _ _ h => h.of_grown hb

theorem Joint.last (hm : J.Joint b m seen P)
    (hf : ∀ x b', J.Grown b b' → J.Suffice b' (P x) → J.Joint b' (f x) .none Q) :
    J.Joint b (m >>= f) seen Q :=
  during_none m seen ▸ hm.bind hf

theorem Joint.enter (hm : J.Joint b m seen P) : J.Joint b m (fun st => .store st :: seen st) P :=
  fun _ _ st h => (hm h).enter (J.seen h) (.refl st)

theorem joint_write (note : Option Note) :
    J.Joint b (Run.write note) .none fun _ _ => True :=
  fun _ _ st h => abreast_ok (st.advances_write note)
    ⟨b, J.refl b, J.write note h, fun _ _ => trivial⟩

theorem joint_call (g : Fn α β) (x : α) :
    J.Joint b (Run.call g x) .none fun y _ => y = g.apply x :=
  (joint_write (g.note x)).last fun _ _ _ _ => joint_pure fun _ _ => rfl

end Closure

section Building
variable {st₀ st : Store ι}

def Built (J : Pairing ι) (b : J.Index) (asked : List (Request ι)) (st : Store ι)
    (r₀ r : Sequence k × Store ι) : Prop :=
  r₀.1 = r.1 ∧ st.Advances r.2 ∧ J.After b (fun s w => Formed w s) r.1 asked r₀.2 r.2

theorem built_alloc (h : J.Related b asked st₀ st) {p : Plan k} (hp : J.Suffice b p.Meaningful) :
    J.Built b asked st (st₀.alloc p) (st.alloc p) := by
  obtain ⟨hs, hmore⟩ := J.alloc h hp
  exact ⟨hs, st.advances_alloc p, hmore⟩

theorem Built.asks {F : Plan a → Plan k} (hF : Plan.Asks F) {input : Plan a}
    {r₀ r : Sequence a × Store ι} (h : J.Built b asked st r₀ r) (hp : J.Suffice b (F input).Meaningful) :
    J.Built b asked st (r₀.2.alloc (F (.given r₀.1))) (r.2.alloc (F (.given r.1))) := by
  obtain ⟨hs, hadvances, b₁, hb₁, h₁, hformed⟩ := h
  have hplan : J.Suffice b₁ (F (.given r.1)).Meaningful :=
    (hp.grown hb₁).imp₂ hformed fun w hw hs => hF.replace hw (Plan.meaningful_given.2 hs)
  obtain ⟨hs', hadvances', b₂, hb₂, h₂, hformed'⟩ := built_alloc h₁ hplan
  rw [hs]
  exact ⟨hs', hadvances.trans hadvances', b₂, J.trans hb₁ hb₂, h₂, hformed'⟩

theorem built (p : Plan k) (h : J.Related b asked st₀ st) (hp : J.Suffice b p.Meaningful) :
    J.Built b asked st (p.build st₀) (p.build st) := by
  induction p generalizing st₀ st b with
  | given s => exact ⟨rfl, .refl st, b, J.refl b, h, hp.imp fun _ => Plan.meaningful_given.1⟩
  | cons head tail ih =>
    obtain ⟨hs, hadvances, b', hb, h', htail⟩ :=
      ih h (hp.imp fun _ hw => (Plan.meaningful_cons.1 hw).2)
    have hhead := hp.imp fun _ hw => (Plan.meaningful_cons.1 hw).1
    exact ⟨congrArg (Node.one head) hs, hadvances, b', hb, h',
      (hhead.grown hb).imp₂ htail fun _ => Node.Formed.one⟩
  | append a b iha ihb =>
    obtain ⟨hs₁, hadvances₁, b₁, hb₁, h₁, ha⟩ :=
      iha h (hp.imp fun _ hw => (Plan.meaningful_append.1 hw).1)
    have hrest := hp.imp fun _ hw => (Plan.meaningful_append.1 hw).2
    obtain ⟨hs₂, hadvances₂, b₂, hb₂, h₂, hb⟩ := ihb h₁ (hrest.grown hb₁)
    exact ⟨congrArg₂ Node.concat hs₁ hs₂, hadvances₁.trans hadvances₂, b₂, J.trans hb₁ hb₂, h₂,
      (ha.grown hb₂).imp₂ hb fun _ => Node.Formed.concat⟩
  | defer note body _ => exact built_alloc h hp
  | map input f ih => exact (ih h (hp.imp fun _ => (Plan.asks_map f).input)).asks (Plan.asks_map f) hp
  | mapPlan input f note ih _ =>
    exact (ih h (hp.imp fun _ => (Plan.asks_mapPlan f note).input)).asks (Plan.asks_mapPlan f note) hp
  | flatten outer ih => exact (ih h (hp.imp fun _ => Plan.asks_flatten.input)).asks Plan.asks_flatten hp
  | take input count ih =>
    have hbuilt := ih h (hp.imp fun _ => (Plan.asks_take count).input)
    by_cases hc : count = 0
    · simp only [Plan.build, hc, if_true]
      obtain ⟨-, hadvances, b', hb, h', -⟩ := hbuilt
      exact ⟨rfl, hadvances, b', hb, h', fun _ _ => Node.Formed.empty⟩
    · simp only [Plan.build, hc, if_false]
      exact hbuilt.asks (Plan.asks_take count) hp
  | takeWhile input p ih =>
    exact (ih h (hp.imp fun _ => (Plan.asks_takeWhile p).input)).asks (Plan.asks_takeWhile p) hp
  | skip input count ih =>
    exact (ih h (hp.imp fun _ => (Plan.asks_skip count).input)).asks (Plan.asks_skip count) hp
  | scan input state step ih =>
    exact (ih h (hp.imp fun _ => (Plan.asks_scan state step).input)).asks (Plan.asks_scan state step) hp
  | stateScan input state step ih =>
    exact (ih h (hp.imp fun _ => (Plan.asks_stateScan state step).input)).asks
      (Plan.asks_stateScan state step) hp

theorem joint_build {p : Plan k} (hp : J.Suffice b p.Meaningful) :
    J.Joint b (Run.build p) .none fun s w => Formed w s := by
  intro asked st₀ st h
  obtain ⟨hs, hadvances, h'⟩ := built p h hp
  change J.Abreast _ asked st [] [] (.ok ((p.build st₀).1, (p.build st₀).2)) _
  rw [hs]
  exact abreast_ok hadvances h'

end Building

end Pairing

end MemoSequence
