import MemoSequence.Element
import MemoSequence.Proofs.RankedRuns
import MemoSequence.Proofs.Waiting
set_option autoImplicit false

namespace MemoSequence
open Sequence (Formed)

variable {ι : Type} [Basis ι] {a k κ : Kind ι} {σ : Type}

section Workers
variable {w : World ι} {t tail : Sequence a}

theorem Plan.Asks.given {F : Plan a → Plan k} (hF : Plan.Asks F) {s : Sequence a}
    (h : (F (.given t)).Meaningful w) (hs : Formed w s) : (F (.given s)).Meaningful w :=
  hF.replace h (Plan.meaningful_given.2 hs)

namespace Worker

def map (f : El a → El k) : Worker a k Unit where
  plan note t _ := .map (.given t) ⟨f, fun x => note ((), x)⟩
  head call := some (.element (f call.2), ())
  build _ _ _ _ := rfl
  unfold _ t _ next := congrArg (next a t >>= ·) (funext fun answer => by cases answer <;> rfl)
  moments _ _ _ _ _ := rfl
  input h := Plan.meaningful_given.1 ((Plan.asks_map _).input h)
  result h hx htail hhead := by
    obtain ⟨rfl, -⟩ := Prod.mk.inj (Option.some.inj hhead)
    exact Plan.meaningful_cons.1 (Plan.meaningful_mapped ((Plan.asks_map _).given h htail) hx)

def takeWhile (p : El k → Bool) : Worker k k Unit where
  plan note t _ := .takeWhile (.given t) ⟨p, fun x => note ((), x)⟩
  head call := if p call.2 then some (.element call.2, ()) else none
  build _ _ _ _ := rfl
  unfold note t _ next := by
    refine congrArg (next k t >>= ·) (funext fun answer => ?_)
    rcases answer with _ | ⟨x, tail⟩
    · rfl
    · cases h : p x with
      | false => simp [Work.resume, Run.call, h]
      | true =>
        simp only [Work.resume, Run.call, h, if_true]
        rfl
  moments _ _ _ _ _ := rfl
  input h := Plan.meaningful_given.1 ((Plan.asks_takeWhile _).input h)
  result h hx htail hhead := by
    obtain ⟨-, hhead⟩ := Option.ite_none_right_eq_some.1 hhead
    obtain ⟨rfl, -⟩ := Prod.mk.inj (Option.some.inj hhead)
    exact ⟨hx, (Plan.asks_takeWhile _).given h htail⟩

def scan (f : σ × El a → El k × σ) : Worker a k σ where
  plan note t s := .scan (.given t) s ⟨f, note⟩
  head call := some (.element (f call).1, (f call).2)
  build _ _ _ _ := rfl
  unfold _ t _ next := congrArg (next a t >>= ·) (funext fun answer => by cases answer <;> rfl)
  moments _ _ _ _ _ := rfl
  input h := Plan.meaningful_given.1 ((Plan.asks_scan _ _).input h)
  result h hx htail hhead := by
    have hcons := Plan.meaningful_scanned ((Plan.asks_scan _ _).given h htail) hx
    obtain ⟨rfl, rfl⟩ := Prod.mk.inj (Option.some.inj hhead)
    exact Plan.meaningful_cons.1 hcons

def stateScan (f : σ × El a → List (El k) × σ) : Worker a k.seq σ where
  plan note t s := .stateScan (.given t) s ⟨f, note⟩
  head call := some (.element (.ofList (f call).1), (f call).2)
  build _ _ _ _ := rfl
  unfold _ t _ next := congrArg (next a t >>= ·) (funext fun answer => by cases answer <;> rfl)
  moments _ _ _ _ _ := rfl
  input h := Plan.meaningful_given.1 ((Plan.asks_stateScan _ _).input h)
  result h hx htail hhead := by
    have hcons := Plan.meaningful_stateScanned ((Plan.asks_stateScan _ _).given h htail) hx
    obtain ⟨rfl, rfl⟩ := Prod.mk.inj (Option.some.inj hhead)
    exact Plan.meaningful_cons.1 hcons

def mapPlan (f : El a → Plan k) : Worker a k.seq Unit where
  plan note t _ := .mapPlan (.given t) f fun x => note ((), x)
  head call := some (.made (f call.2), ())
  build _ _ _ _ := rfl
  unfold _ t _ next := congrArg (next a t >>= ·) (funext fun answer => by cases answer <;> rfl)
  moments _ _ _ _ _ := rfl
  input h := Plan.meaningful_given.1 ((Plan.asks_mapPlan _ _).input h)
  result h hx htail hhead := by
    obtain ⟨rfl, -⟩ := Prod.mk.inj (Option.some.inj hhead)
    exact ⟨Plan.meaningful_mapped_plan h hx, (Plan.asks_mapPlan _ _).given h htail⟩

end Worker

end Workers

namespace Line
variable {L : Line a k σ}

theorem employs_element {W : Worker a k σ} {g : σ × El a → El k × σ}
    (hhead : ∀ call, W.head call = some (.element (g call).1, (g call).2))
    (hstep : ∀ call, L.step call [(g call).1] (some (g call).2)) :
    L.Employs W fun y ys => ys = [y] where
  more {s x front s'} h y hy := by
    obtain ⟨rfl, rfl⟩ := Prod.mk.inj (Option.some.inj ((hhead (s, x)).symm.trans h))
    obtain ⟨-, rfl⟩ := hy
    exact ⟨_, rfl, hstep (s, x)⟩
  last h := by
    rw [hhead] at h
    cases h

theorem employs_list {W : Worker a k.seq σ} {g : σ × El a → List (El k) × σ}
    (hhead : ∀ call, W.head call = some (.element (.ofList (g call).1), (g call).2))
    (hstep : ∀ call, L.step call (g call).1 (some (g call).2)) : L.Employs W Node.Holds where
  more {s x front s'} h y hy := by
    obtain ⟨rfl, rfl⟩ := Prod.mk.inj (Option.some.inj ((hhead (s, x)).symm.trans h))
    obtain ⟨-, rfl⟩ := hy
    exact ⟨_, .ofList _, hstep (s, x)⟩
  last h := by
    rw [hhead] at h
    cases h

end Line

section Starting
variable {L : Line a k σ} {st : Store ι} {r : Ranks ι} {asked : List (Request ι)}

def Ranks.lowered (r : Ranks ι) : Ranks ι := r.map fun c => (c.1, -1)

theorem Ranks.getElem?_lowered {id : Nat} {k : Kind ι} {x : ℚ} (h : r[id]? = some (k, x)) :
    r.lowered[id]? = some (k, -1) := by
  rw [lowered, List.getElem?_map, h]
  rfl

theorem Ranks.Suffice.lowered {q : ℚ} {P : World ι → Prop} (h : r.Suffice q P) :
    r.lowered.Suffice 0 P :=
  fun w hw => h w fun _ _ _ hid _ => hw (getElem?_lowered hid) neg_one_lt_zero

/-- Before the line has begun the stores do not differ. -/
theorem Line.twins_itself (hk : st.keeps = true) (hst : st.Ranked r) :
    L.Twins ⟨r.lowered, [], []⟩ asked st st where
  keeps₀ := hk
  keeps := hk
  size₀ := by simp [hst.size, Ranks.lowered]
  size := by simp [hst.size, Ranks.lowered]
  waiting _ he := by cases he
  agree id hid _ := by
    obtain ⟨⟨kind, p, m⟩, hc⟩ : ∃ c, st.cells[id]? = some c := by
      have hlt : id < st.cells.size := by
        simpa [hst.size, Ranks.lowered] using hid
      exact ⟨_, Array.getElem?_eq_getElem hlt⟩
    obtain ⟨x, hx, hp, hv⟩ := hst.cell hc
    have hrank := Ranks.getElem?_lowered hx
    refine ⟨_, _, hc, hc, ?_⟩
    cases m with
    | unforced => exact .unforced hrank fun _ => hp.lowered
    | running => exact .running hrank
    | forced v => exact .forced hrank fun _ => (hv v rfl).lowered
  journal := interleaved_nil _
  called := calledAlong_nil asked st

theorem Line.ready_start {κ : Kind ι} {W : Worker a κ σ} {rest : Sequence k} (hrest : L.handle = rest)
    (hplan : ∀ note, r.Suffice 0 (W.plan note L.input L.start).Meaningful)
    {waiting : List (Nat × Cell ι × Cell ι)} : L.Ready W ⟨r, [], waiting⟩ st rest L.input L.start where
  state := .start
  input := .start
  output := ⟨[], rfl, hrest ▸ .start⟩
  plan := hplan

variable {m : Sequence κ} {st₀ st₁ : Store ι}

/-- Where a sequence has been made without notes and with them, the stores are twins. -/
def Line.Starts (L : Line a k σ) (r : Ranks ι) (asked : List (Request ι)) (m : Sequence κ)
    (st₀ st₁ : Store ι) : Prop :=
  ∃ R : L.Resting, (L.pairing R).Forces ∧ ∃ b : Line.Index a k σ, r.lowered <+: b.ranks ∧
    (L.pairing R).Related b asked st₀ st₁ ∧ b.ranks.Suffice 0 (Formed · m)

namespace Line

theorem starts_direct {W : Worker a k σ} (hL : L.Employs W fun y ys => ys = [y]) (hk : st.keeps = true)
    (hst : st.Ranked r) (hhandle : L.handle = .lazy r.lowered.length)
    (hplan : ∀ note, r.lowered.Suffice 0 (W.plan note L.input L.start).Meaningful) :
    L.Starts r asked L.handle (st.alloc (W.plan (fun _ => none) L.input L.start)).2
      (st.alloc (W.plan L.note L.input L.start)).2 := by
  have hgrown : r.lowered <+: r.lowered ++ [(k, -1)] := List.prefix_append _ _
  have hnew : (r.lowered ++ [(k, (-1 : ℚ))])[r.lowered.length]? = some (k, -1) :=
    List.getElem?_concat_length
  refine ⟨L.direct W, direct_forces hL, ⟨_, [], [L.entry W r.lowered.length L.input L.start]⟩, hgrown,
    ⟨(twins_itself hk hst).alloc (.inr rfl), .inr ⟨_, _, _, rfl, hnew, ?_⟩⟩, fun w hw => ?_⟩
  · exact ready_start hhandle fun note => (hplan note).grown hgrown
  · exact hhandle ▸ .lazy (hw hnew neg_one_lt_zero)

theorem starts_hidden {W : Worker a k.seq σ} (hL : L.Employs W Node.Holds) (hk : st.keeps = true)
    (hst : st.Ranked r) (hhandle : L.handle = .lazy (r.lowered.length + 1))
    (hplan : ∀ note, r.lowered.Suffice 0 (W.plan note L.input L.start).Meaningful) :
    L.Starts r asked L.handle
      ((st.alloc (W.plan (fun _ => none) L.input L.start)).2.alloc (.flattening k r.lowered.length)).2
      ((st.alloc (W.plan L.note L.input L.start)).2.alloc (.flattening k r.lowered.length)).2 := by
  have hinner : r.lowered <+: r.lowered ++ [(k.seq, 1)] := List.prefix_append _ _
  have houter : r.lowered ++ [(k.seq, 1)] <+: r.lowered ++ [(k.seq, 1)] ++ [(k, -1)] :=
    List.prefix_append _ _
  have hlength : (r.lowered ++ [(k.seq, (1 : ℚ))]).length = r.lowered.length + 1 := by simp
  have hid : (r.lowered ++ [(k.seq, (1 : ℚ))] ++ [(k, -1)])[r.lowered.length + 1]? = some (k, -1) :=
    hlength ▸ List.getElem?_concat_length
  have hc : (r.lowered ++ [(k.seq, (1 : ℚ))] ++ [(k, -1)])[r.lowered.length]? = some (k.seq, 1) :=
    Ranks.getElem?_of_grown houter List.getElem?_concat_length
  have htwins : L.Twins ⟨r.lowered ++ [(k.seq, 1)] ++ [(k, -1)], [],
      [flattening k (r.lowered ++ [(k.seq, (1 : ℚ))]).length r.lowered.length,
        L.entry W r.lowered.length L.input L.start]⟩ asked
      ((st.alloc (W.plan (fun _ => none) L.input L.start)).2.alloc (.flattening k r.lowered.length)).2
      ((st.alloc (W.plan L.note L.input L.start)).2.alloc (.flattening k r.lowered.length)).2 :=
    ((twins_itself hk hst).alloc (.inr rfl)).alloc (.inr rfl)
  rw [hlength] at htwins
  refine ⟨L.hidden W, hidden_forces hL, _, hinner.trans houter,
    ⟨htwins, .inr ⟨_, _, _, _, rfl, hid, hc, ?_⟩⟩, fun w hw => ?_⟩
  · exact ready_start hhandle fun note => (hplan note).grown (hinner.trans houter)
  · exact hhandle ▸ .lazy (hw hid neg_one_lt_zero)

theorem starts_produced {x : El a} {body : Unit → Plan k} (hinput : L.input = .single x)
    (hstep : L.step (L.start, x) [] none) (hk : st.keeps = true) (hst : st.Ranked r)
    (hhandle : L.handle = .lazy r.lowered.length) (hbody : r.lowered.Suffice 0 (body ()).Meaningful) :
    L.Starts r asked L.handle (st.alloc (.defer none body)).2
      (st.alloc (.defer (L.note (L.start, x)) body)).2 := by
  have hgrown : r.lowered <+: r.lowered ++ [(k, -1)] := List.prefix_append _ _
  have hnew : (r.lowered ++ [(k, (-1 : ℚ))])[r.lowered.length]? = some (k, -1) :=
    List.getElem?_concat_length
  refine ⟨L.produced x body, produced_forces hinput hstep, ⟨_, [], [_]⟩, hgrown,
    ⟨(twins_itself hk hst).alloc (.inr rfl), .inr ⟨_, hhandle, rfl, rfl, hnew, hbody.grown hgrown⟩⟩,
    fun w hw => ?_⟩
  exact hhandle ▸ .lazy (hw hnew neg_one_lt_zero)

theorem Starts.alloc (h : L.Starts r asked m st₀ st₁) {made : Kind ι} {p : Plan made}
    (hp : ∀ w, Formed w m → p.Meaningful w) :
    (st₀.alloc p).1 = (st₁.alloc p).1 ∧
      L.Starts r asked (st₁.alloc p).1 (st₀.alloc p).2 (st₁.alloc p).2 := by
  obtain ⟨R, hforces, b, hr, h, hm⟩ := h
  obtain ⟨hs, b', hb, h', hformed⟩ := (L.pairing R).alloc h fun w hw => hp w (hm w hw)
  exact ⟨hs, R, hforces, b', hr.trans hb.ranks, h', hformed⟩

end Line

end Starting

namespace Calling
variable {st : Store ι} {r : Ranks ι} {given : Env ι} {q : ℚ} {i : Nat} {note : σ × El a → Option Note}

def line (c : Calling a k κ σ) (i : Nat) (note : σ × El a → Option Note) (given : Env ι)
    (handle : Sequence κ) : Line a κ σ where
  input := c.input i given
  handle := handle
  start := c.start given
  step := c.step given
  note := note

/-- The sequence is made without notes and with them; from there on the two stores are twins. -/
def Begins (c : Calling a k κ σ) (i : Nat) (note : σ × El a → Option Note) (given : Env ι) (r : Ranks ι)
    (st : Store ι) : Prop :=
  ∃ m handle st₀ st₁, ((c.make i fun _ => none).plan given).build st = (m, st₀) ∧
    ((c.make i note).plan given).build st = (m, st₁) ∧ c.Serves st₁ m handle ∧
    (c.line i note given handle).Starts r [] m st₀ st₁

theorem begins_direct {c : Calling a k k σ} {W : Worker a k σ} (hk : st.keeps = true) (hst : st.Ranked r)
    (hserves : ∀ st m, c.Serves st m m)
    (hplan : ∀ note, (c.make i note).plan given = W.plan note (c.input i given) (c.start given))
    (hL : ∀ handle, (c.line i note given handle).Employs W fun y ys => ys = [y])
    (hmeans : ∀ note, r.Suffice q ((c.make i note).plan given).Meaningful) : c.Begins i note given r st := by
  have hsize : st.cells.size = r.lowered.length := by simp [hst.size, Ranks.lowered]
  refine ⟨.lazy st.cells.size, _, _, _, ?_, ?_, hserves _ _, Line.starts_direct (hL _) hk hst ?_ ?_⟩
  · rw [hplan, W.build]
    rfl
  · rw [hplan, W.build]
    rfl
  · exact congrArg Node.lazy hsize
  · exact fun note => (hplan note ▸ hmeans note).lowered

theorem begins_hidden {c : Calling a k k σ} {W : Worker a k.seq σ} (hk : st.keeps = true)
    (hst : st.Ranked r) (hserves : ∀ st m, c.Serves st m m)
    (hplan : ∀ note, (c.make i note).plan given =
      .flatten (W.plan note (c.input i given) (c.start given)))
    (hL : ∀ handle, (c.line i note given handle).Employs W Node.Holds)
    (hmeans : ∀ note, r.Suffice q ((c.make i note).plan given).Meaningful) : c.Begins i note given r st := by
  have hsize : st.cells.size = r.lowered.length := by simp [hst.size, Ranks.lowered]
  have hbuild : ∀ note, ((c.make i note).plan given).build st = (.lazy (r.lowered.length + 1),
      ((st.alloc (W.plan note (c.input i given) (c.start given))).2.alloc
        (.flattening k r.lowered.length)).2) := by
    intro note
    rw [hplan, Plan.build, W.build, ← hsize]
    simp [Store.alloc]
  refine ⟨_, _, _, _, hbuild _, hbuild _, hserves _ _, Line.starts_hidden (hL _) hk hst rfl fun note => ?_⟩
  exact (hplan note ▸ hmeans note).lowered.imp fun _ => Plan.asks_flatten.input

theorem begins_flatMap (f : Uniform ((El.reading a).fn (Plan.reading k))) {note : Unit × El a → Option Note}
    (hk : st.keeps = true) (hst : st.Ranked r)
    (hmeans : ∀ note, r.Suffice q (((flatMap f).make i note).plan given).Meaningful) :
    (flatMap f).Begins i note given r st := by
  have hsize : st.cells.size = r.lowered.length := by simp [hst.size, Ranks.lowered]
  have hL : ((flatMap f).line i note given (.lazy r.lowered.length)).Employs (.mapPlan (f.run given))
      fun y ys => ys = [y] := by
    refine ⟨fun {s x front s'} h {y} hy => ?_, fun h => ?_⟩
    · obtain ⟨rfl, rfl⟩ := Prod.mk.inj (Option.some.inj h)
      obtain ⟨st, hy⟩ := hy
      exact ⟨_, rfl, ⟨st, hy ▸ rfl⟩, rfl⟩
    · cases h
  have hstarts : ((flatMap f).line i note given (.lazy r.lowered.length)).Starts r [] _ _ _ :=
    Line.starts_direct hL hk hst rfl fun note => (hmeans note).lowered.imp fun _ => Plan.asks_flatten.input
  obtain ⟨hs, hstarts⟩ := hstarts.alloc (p := .flattening k r.lowered.length)
    fun w hw => ⟨_, _, ⟨hw, rfl⟩, rfl⟩
  have hbuild : ∀ note, (((flatMap f).make i note).plan given).build st =
      (st.alloc (.mapPlan (.given (given.seq a i)) (f.run given) fun x => note ((), x))).2.alloc
        (.flattening k r.lowered.length) := by
    intro note
    rw [← hsize]
    rfl
  refine ⟨_, _, _, _, ?_, hbuild note, ⟨st.cells.size + 1, ?_, ?_⟩, hstarts⟩
  · exact (hbuild fun _ => none).trans (Prod.ext hs rfl)
  · simp [Store.alloc]
  · simp [Store.alloc, Array.getElem_push]

theorem begins_defer (body : Uniform (Plan.reading k)) {note : Unit × El .nat → Option Note}
    (hk : st.keeps = true) (hst : st.Ranked r)
    (hmeans : ∀ note, r.Suffice q (((defer body).make i note).plan given).Meaningful) :
    (defer body).Begins i note given r st := by
  have hsize : st.cells.size = r.lowered.length := by simp [hst.size, Ranks.lowered]
  refine ⟨.lazy st.cells.size, _, _, _, rfl, rfl, rfl, ?_⟩
  refine Line.starts_produced (L := (defer body).line i note given (.lazy st.cells.size)) (x := (0 : Nat))
    rfl ⟨rfl, rfl⟩ hk hst (congrArg Node.lazy hsize) ?_
  exact (hmeans note).lowered.imp fun _ => Plan.meaningful_defer.1

theorem begins (c : Calling a k κ σ) (i : Nat) (note : σ × El a → Option Note) (hk : st.keeps = true)
    (hst : st.Ranked r) (hmeans : ∀ note, r.Suffice q ((c.make i note).plan given).Meaningful) :
    c.Begins i note given r st := by
  cases c with
  | map f =>
    refine begins_direct (W := .map (f.run given).apply) hk hst (fun _ _ => rfl) (fun _ => rfl)
      (fun _ => ?_) hmeans
    exact Line.employs_element (g := fun call => ((f.run given).apply call.2, ())) (fun _ => rfl)
      fun _ => ⟨rfl, rfl⟩
  | takeWhile p =>
    refine begins_direct (W := .takeWhile (p.run given).apply) hk hst (fun _ _ => rfl) (fun _ => rfl)
      (fun _ => ⟨fun {s x front s'} h {y} hy => ?_, fun {s x} h => ?_⟩) hmeans
    · obtain ⟨hp, h⟩ := Option.ite_none_right_eq_some.1 h
      obtain ⟨rfl, rfl⟩ := Prod.mk.inj (Option.some.inj h)
      obtain ⟨-, rfl⟩ := hy
      exact ⟨_, rfl, (if_pos hp).mpr ⟨rfl, rfl⟩⟩
    · have hp : ¬ (p.run given).apply x = true := fun hp => by simp [Worker.takeWhile, hp] at h
      exact (if_neg hp).mpr ⟨rfl, rfl⟩
  | scan R hR state f =>
    refine begins_direct (W := .scan (f.run given).apply) hk hst (fun _ _ => rfl) (fun _ => rfl)
      (fun _ => ?_) hmeans
    exact Line.employs_element (g := (f.run given).apply) (fun _ => rfl) fun _ => ⟨rfl, rfl⟩
  | filter p =>
    refine begins_hidden (W := .mapPlan fun x => if (p.run given).apply x then .single x else .empty) hk hst
      (fun _ _ => rfl) (fun _ => rfl) (fun _ => ⟨fun {s x front s'} h {y} hy => ?_, fun h => ?_⟩) hmeans
    · obtain ⟨rfl, rfl⟩ := Prod.mk.inj (Option.some.inj h)
      obtain ⟨st, rfl⟩ := hy
      have hpart : Node.Holds ((if (p.run given).apply x then Plan.single x else .empty).build st).1
          (if (p.run given).apply x then [x] else []) := by
        split
        · exact .single x
        · exact .ofList []
      exact ⟨_, hpart, rfl, rfl⟩
    · cases h
  | flatMap f => exact begins_flatMap f hk hst hmeans
  | stateScan R hR state f =>
    refine begins_hidden (W := .stateScan (f.run given).apply) hk hst (fun _ _ => rfl) (fun _ => rfl)
      (fun _ => ?_) hmeans
    exact Line.employs_list (g := (f.run given).apply) (fun _ => rfl) fun _ => ⟨rfl, rfl⟩
  | inclusiveScan state f =>
    refine begins_hidden
      (W := .stateScan fun x => ([(f.run given).apply x], (f.run given).apply x)) hk hst
      (fun _ _ => rfl) (fun _ => rfl) (fun _ => ?_) hmeans
    exact Line.employs_list (fun _ => rfl) fun _ => ⟨rfl, rfl⟩
  | exclusiveScan state f =>
    refine begins_hidden (W := .stateScan fun x => ([x.1], (f.run given).apply x)) hk hst
      (fun _ _ => rfl) (fun _ => rfl) (fun _ => ?_) hmeans
    exact Line.employs_list (fun _ => rfl) fun _ => ⟨rfl, rfl⟩
  | defer body => exact begins_defer body hk hst hmeans

end Calling

section Programs
variable {fuel : Nat} {env : Env ι} {st : Store ι}

end Programs

end MemoSequence
