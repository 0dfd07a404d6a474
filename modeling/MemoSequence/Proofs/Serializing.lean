import MemoSequence.Shape
import MemoSequence.Proofs.Guard
import MemoSequence.Proofs.Json.Typed
import MemoSequence.Proofs.Prefixes
set_option autoImplicit false

namespace MemoSequence
open Sequence (Formed trail)

def arrayText (texts : List String) : String := "[" ++ ",".intercalate texts ++ "]"

namespace Shape

/-- What an element comes to when it is looked through: of an inner sequence these are its elements. -/
@[reducible] def Data : Shape → Type
  | int => Int64
  | nat => ℕ
  | text => String
  | optional => Option Int64
  | entry => ℕ × Int64
  | nested => List Int64

def look (fuel : ℕ) : (shape : Shape) → El shape.kind → Run Atom shape.Data
  | int, n => return n
  | nat, n => return n
  | text, s => return s
  | optional, n => return n
  | entry, p => return p
  | nested, s => Sequence.toList fuel s

def toVecs (shape : Shape) (fuel : ℕ) (s : Sequence shape.kind) : Run Atom (List shape.Data) := do
  (← Sequence.toList fuel s).mapM (shape.look fuel)

def dataText : (shape : Shape) → shape.Data → String
  | int, n => intText n
  | nat, n => natText n
  | text, s => Quoted.write s
  | optional, n => optionalText n
  | entry, (i, n) => "[" ++ natText i ++ "," ++ intText n ++ "]"
  | nested, ns => arrayText (ns.map intText)

/-- The element is refused: it is a sequence that is known to be endless. -/
def Flagged : (shape : Shape) → Store Atom → El shape.kind → Prop
  | nested, st, s => st.isUnbounded s = true
  | _, _, _ => False

/-- In the course of writing a sequence, this element is reached in this store. -/
inductive Meets (shape : Shape) : Store Atom → Sequence shape.kind → Store Atom → El shape.kind → Prop
  | here {st st' : Store Atom} {s tail : Sequence shape.kind} {x : El shape.kind}
      (h : Gives (fun fuel => Sequence.next fuel s) st (some (x, tail)) st') : Meets shape st s st' x
  | later {st st₁ st₂ st' : Store Atom} {s tail : Sequence shape.kind} {x y : El shape.kind} {piece : String}
      (h : Gives (fun fuel => Sequence.next fuel s) st (some (x, tail)) st₁)
      (hx : Gives (fun fuel => shape.write fuel x) st₁ (.ok piece) st₂) (hrest : Meets shape st₂ tail st' y) :
      Meets shape st s st' y

end Shape

section Writing
variable {ι : Type} [Basis ι] {k : Kind ι}

def putting (item : El k → Run ι (Except Refusal String)) (pieces : Except Refusal (Array String))
    (x : El k) : Run ι (ForInStep (Except Refusal (Array String))) :=
  match pieces with
  | .error refusal => return .done (.error refusal)
  | .ok pieces => do
    match ← item x with
    | .ok piece => return .yield (.ok (pieces.push piece))
    | .error refusal => return .done (.error refusal)

def closing (pieces : Except Refusal (Array String)) : Except Refusal String :=
  pieces.map fun pieces => arrayText pieces.toList

theorem serialize_eq (item : El k → Run ι (Except Refusal String)) (fuel : ℕ) (s : Sequence k)
    (st : Store ι) :
    Sequence.serialize item fuel s st =
      if st.isUnbounded s then .ok (.error .unbounded, st)
      else (closing <$> Sequence.traverse (putting item) fuel (.ok #[]) s) st := by
  have hview : Sequence.serialize item fuel s st = (if st.isUnbounded s then
      (pure (.error .unbounded) : Run ι _)
      else closing <$> Sequence.traverse (putting item) fuel (.ok #[]) s) st := by
    rw [map_eq_pure_bind]
    rfl
  rw [hview]
  split <;> rfl

theorem traverse_putting (f : El k → String) (fuel : ℕ) (s : Sequence k) :
    Sequence.traverse (putting (ι := ι) fun x => return .ok (f x)) fuel (.ok #[]) s =
      (fun seen => .ok (seen.map f)) <$> Sequence.toArray fuel s := by
  have hstep : ∀ (seen : Array (El k)) (x : El k),
      putting (ι := ι) (fun x => return .ok (f x)) (.ok (seen.map f)) x =
        decidedOf (fun seen => .ok (seen.map f)) <$> (return .yield (seen.push x)) := by
    intro seen x
    simp [putting, decidedOf]
  have hloop := Sequence.traverse_map hstep fuel #[] s
  rw [Array.map_empty] at hloop
  exact hloop

end Writing

namespace Shape
variable {shape : Shape} {st st' : Store Atom} {w : World Atom} {x : El shape.kind} {v : Value shape.kind}

theorem write_flagged (h : shape.Flagged st x) (fuel : ℕ) :
    shape.write fuel x st = .ok (.error .unbounded, st) := by
  cases shape with
  | nested => exact (serialize_eq _ fuel x st).trans (if_pos h)
  | _ => exact h.elim

theorem write_eq_look (h : ¬ shape.Flagged st x) (fuel : ℕ) :
    shape.write fuel x st = (do return .ok (shape.dataText (← shape.look fuel x)) : Run Atom _) st := by
  cases shape with
  | nested =>
    refine (serialize_eq _ fuel x st).trans ((if_neg h).trans ?_)
    rw [traverse_putting, look, Sequence.toList, Functor.map_map, map_eq_pure_bind]
    simp [closing, dataText, Except.map]
  | _ => rfl

def Shows : (shape : Shape) → Value shape.kind → shape.Data → Prop
  | int, v, n => v = n
  | nat, v, n => v = n
  | text, v, s => v = s
  | optional, v, n => v = n
  | entry, v, p => v = p
  | nested, S, ns => Lists S.trail ns

theorem look_adequate (hst : st.Means w) (hx : El.reading shape.kind w x v) :
    Adequate (fun fuel => shape.look fuel x) st w (.same shape.Data) (shape.Shows v) := by
  have hplain : ∀ {α : Type} {n u : α}, u = n →
      Adequate (fun _ => (pure n : Run Atom α)) st w (.same α) (u = ·) := by
    rintro α n _ rfl
    exact (returned_adequate hst rfl).congr fun _ => eq_comm
  obtain ⟨hx, rfl⟩ := hx
  cases shape with
  | nested =>
    have hsame : (El.reading .int).list = (.same (List Int64) : Reading Atom _ _) :=
      funext fun _ => funext₂ fun _ _ => propext El.list_reading_base
    have hlist := Sequence.toList_adequate hst hx
    rwa [hsame] at hlist
  | optional => exact hplain (by cases x <;> rfl)
  | _ => exact hplain rfl

def Holds (shape : Shape) (d : Trail (Value shape.kind)) (data : List shape.Data) : Prop :=
  ∃ values, Lists d values ∧ List.Forall₂ shape.Shows values data

theorem looks_adequate {xs : List (El shape.kind)} {values : List (Value shape.kind)} (hst : st.Means w)
    (h : (El.reading shape.kind).list w xs values) :
    Adequate (fun fuel => xs.mapM (shape.look fuel)) st w (.same (List shape.Data))
      (List.Forall₂ shape.Shows values) := by
  induction xs generalizing values st w with
  | nil =>
    cases h
    exact (returned_adequate hst rfl).congr fun _ => List.forall₂_nil_left_iff.symm
  | cons x xs ih =>
    obtain ⟨v, values, hx, hxs, rfl⟩ := List.forall₂_cons_left_iff.1 h
    have hall := (look_adequate hst hx).bind fun {a b st₁ w₁} hl (_ : shape.Shows v b) (hb : a = b) =>
      (ih hl.means ((El.lasting_reading _).list hl.grown hxs)).mapped (f := (a :: ·)) (g := (b :: ·))
        fun _ _ _ hrest => congrArg₂ List.cons hb hrest
    simp only [List.mapM_cons]
    refine hall.congr fun data => List.forall₂_cons_left_iff.trans ?_ |>.symm
    constructor
    · rintro ⟨b, more, hb, hmore, rfl⟩
      exact ⟨b, hb, more, hmore, rfl⟩
    · rintro ⟨b, hb, more, hmore, rfl⟩
      exact ⟨b, more, hb, hmore, rfl⟩

theorem toVecs_adequate {s : Sequence shape.kind} (hst : st.Means w) (hs : Formed w s) :
    Adequate (fun fuel => shape.toVecs fuel s) st w (.same (List shape.Data)) (shape.Holds (trail w s)) :=
  (Sequence.toList_adequate hst hs).bind fun hl _ h => looks_adequate hl.means h

theorem not_unbounded {k : Kind Atom} {s : Sequence k} (hst : st.Means w) (hs : Formed w s)
    {values : List (Value k)} (h : Lists (trail w s) values) : ¬ st.isUnbounded s = true := fun hu =>
  ((Store.isUnbounded_iff s).1 hu).not_finite hst hs h.finite

theorem not_flagged (hst : st.Means w) (hx : El.reading shape.kind w x v) {data : shape.Data}
    (h : shape.Shows v data) : ¬ shape.Flagged st x := by
  cases shape with
  | nested =>
    obtain ⟨hx, rfl⟩ := hx
    exact not_unbounded hst hx h
  | _ => exact id

section Courses
variable {s tail : Sequence shape.kind} {r : Except Refusal (List String)}

/-- A course of writing: the texts of all elements, or a refusal. -/
inductive Puts (shape : Shape) :
    Store Atom → Sequence shape.kind → Except Refusal (List String) → Store Atom → Prop
  | ended {st st' : Store Atom} {s : Sequence shape.kind}
      (h : Gives (fun fuel => Sequence.next fuel s) st none st') : Puts shape st s (.ok []) st'
  | refused {st st' : Store Atom} {s tail : Sequence shape.kind} {x : El shape.kind}
      (h : Gives (fun fuel => Sequence.next fuel s) st (some (x, tail)) st') (hx : shape.Flagged st' x) :
      Puts shape st s (.error .unbounded) st'
  | passed {st st₁ st₂ st' : Store Atom} {s tail : Sequence shape.kind} {x : El shape.kind} {piece : String}
      {r : Except Refusal (List String)}
      (h : Gives (fun fuel => Sequence.next fuel s) st (some (x, tail)) st₁)
      (hx : Gives (fun fuel => shape.write fuel x) st₁ (.ok piece) st₂) (hrest : Puts shape st₂ tail r st') :
      Puts shape st s (r.map (piece :: ·)) st'

theorem Puts.traverse (h : Puts shape st s r st') (pieces : Array String) :
    ∃ N, ∀ m n, N ≤ m → N ≤ n →
      Sequence.traverse (putting (shape.write m)) n (.ok pieces) s st =
        .ok (r.map fun more => pieces ++ more.toArray, st') := by
  -- The loop has one unit of fuel less in each round, while all elements are written with the same fuel.
  induction h generalizing pieces with
  | ended h =>
    obtain ⟨N, hN⟩ := h
    refine ⟨N + 1, fun m n _ hn => ?_⟩
    obtain ⟨n, rfl⟩ : ∃ n', n = n' + 1 := ⟨n - 1, by omega⟩
    have hnil : pieces ++ ([] : List String).toArray = pieces := Array.append_empty
    exact (traverse_ended (hN n (by omega))).trans (by rw [Except.map, hnil])
  | refused h hx =>
    obtain ⟨N, hN⟩ := h
    refine ⟨N + 1, fun m n _ hn => ?_⟩
    obtain ⟨n, rfl⟩ : ∃ n', n = n' + 1 := ⟨n - 1, by omega⟩
    exact traverse_done (hN n (by omega)) (Run.bind_eq_ok.2 ⟨_, _, write_flagged hx m, rfl⟩)
  | @passed _ _ _ _ _ _ _ piece r h hx _ ih =>
    obtain ⟨N, hN⟩ := h
    obtain ⟨M, hM⟩ := hx
    obtain ⟨K, hK⟩ := ih (pieces.push piece)
    refine ⟨max N (max M K) + 1, fun m n hm hn => ?_⟩
    obtain ⟨n, rfl⟩ : ∃ n', n = n' + 1 := ⟨n - 1, by omega⟩
    have hrest := hK m n (by omega) (by omega)
    refine (traverse_yield (hN n (by omega)) (Run.bind_eq_ok.2 ⟨_, _, hM m (by omega), rfl⟩) hrest).trans ?_
    cases r <;> simp [Except.map]

theorem gives_write (hx : ¬ shape.Flagged st x) {data : shape.Data}
    (h : Gives (fun fuel => shape.look fuel x) st data st') :
    Gives (fun fuel => shape.write fuel x) st (.ok (shape.dataText data)) st' := by
  obtain ⟨N, hN⟩ := h
  refine ⟨N, fun n hn => (write_eq_look hx n).trans ?_⟩
  exact Run.bind_eq_ok.2 ⟨data, st', hN n hn, rfl⟩

theorem look_of_write {fuel : ℕ} {piece : String} (h : shape.write fuel x st = .ok (.ok piece, st')) :
    ¬ shape.Flagged st x ∧ ∃ data, shape.look fuel x st = .ok (data, st') ∧ piece = shape.dataText data := by
  have hx : ¬ shape.Flagged st x := by
    intro hx
    rw [write_flagged hx fuel] at h
    exact nomatch h
  rw [write_eq_look hx fuel] at h
  obtain ⟨data, st₁, hlook, h⟩ := Run.bind_eq_ok.1 h
  obtain ⟨hpiece, rfl⟩ := Run.pure_eq_ok.1 h
  exact ⟨hx, data, hlook, (Except.ok.inj hpiece).symm⟩

section Steps
variable {st₁ st₂ : Store Atom} {piece : String} (hst : st.Means w) (hs : Formed w s)
include hst hs

theorem lists_of_ended (h : Gives (fun fuel => Sequence.next fuel s) st none st₁) :
    Lists (trail w s) [] := by
  obtain ⟨fuel, hnext⟩ := h.run
  obtain ⟨w₁, -, ht⟩ := next_sound fuel hnext hst hs
  obtain ⟨n, hd⟩ := Sequence.tells_none.1 ht
  exact hd ▸ .nil n

theorem lists_of_reached (h : Gives (fun fuel => Sequence.next fuel s) st (some (x, tail)) st₁) :
    ∃ w₁ v, st.Leads w st₁ w₁ ∧ El.reading shape.kind w₁ x v ∧ Formed w₁ tail ∧
      ∀ values, Lists (trail w s) values ↔ ∃ more, values = v :: more ∧ Lists (trail w₁ tail) more := by
  obtain ⟨fuel, hnext⟩ := h.run
  obtain ⟨w₁, hl, ht⟩ := next_sound fuel hnext hst hs
  obtain ⟨⟨n, hd⟩, hx, htail⟩ := Sequence.tells_some.1 ht
  refine ⟨w₁, _, hl, ⟨hx, rfl⟩, htail, fun values => ?_⟩
  rw [hd, lists_ticks_iff, lists_cons_iff]

theorem lists_of_written (h : Gives (fun fuel => Sequence.next fuel s) st (some (x, tail)) st₁)
    (hx : Gives (fun fuel => shape.write fuel x) st₁ (.ok piece) st₂) :
    ∃ w₂ v datum, st.Leads w st₂ w₂ ∧ shape.Shows v datum ∧ piece = shape.dataText datum ∧ Formed w₂ tail ∧
      ∀ values, Lists (trail w s) values ↔ ∃ more, values = v :: more ∧ Lists (trail w₂ tail) more := by
  obtain ⟨w₁, v, hl, hread, htail, hlists⟩ := lists_of_reached hst hs h
  obtain ⟨fuel, hwrite⟩ := hx.run
  obtain ⟨-, datum, hlook, hpiece⟩ := look_of_write hwrite
  obtain ⟨w₂, _, hl₂, hshows, rfl⟩ := (look_adequate hl.means hread).sound hlook
  exact ⟨w₂, v, datum, hl.trans hl₂, hshows, hpiece, htail.mono hl₂.grown, htail.trail_eq hl₂.grown ▸ hlists⟩

end Steps

def Ends (shape : Shape) (st : Store Atom) (s : Sequence shape.kind) : Prop :=
  ∀ st' x, shape.Meets st s st' x → ¬ shape.Flagged st' x →
    ∃ fuel data st'', shape.look fuel x st' = .ok (data, st'')

/-- Some inner sequence is known to be endless when it is reached. -/
def Refused (shape : Shape) (st : Store Atom) (s : Sequence shape.kind) : Prop :=
  ∃ st' x, shape.Meets st s st' x ∧ shape.Flagged st' x

theorem exists_puts {values : List (Value shape.kind)} (h : Lists (trail w s) values) (hst : st.Means w)
    (hquiet : ∀ id, ¬ st.Running id) (hs : Formed w s) (hends : shape.Ends st s) :
    ∃ r st', shape.Puts st s r st' := by
  generalize hd : trail w s = d at h
  induction h generalizing st w s with
  | nil n =>
    obtain ⟨st₁, w₁, hgives, -⟩ := next_gives_none hst hquiet hs hd
    exact ⟨_, st₁, .ended hgives⟩
  | cons n v form _ ih =>
    obtain ⟨x, tail, st₁, w₁, hgives, hl, hx, htail⟩ := next_gives_some hst hquiet hs hd
    by_cases hflagged : shape.Flagged st₁ x
    · exact ⟨_, st₁, .refused hgives hflagged⟩
    · -- Some run looks the element through, so by adequacy every run with enough fuel does.
      obtain ⟨fuel, data, st', hlook⟩ := hends st₁ x (.here hgives) hflagged
      have hadequate := look_adequate hl.means hx
      obtain ⟨-, data, -, hshows, -⟩ := hadequate.sound hlook
      obtain ⟨data, st₂, w₂, hlook, hl₂, -⟩ := hadequate.gives (hl.quiet hquiet) hshows
      have hwrite := gives_write hflagged hlook
      have hl' := hl.trans hl₂
      obtain ⟨htail, hshown⟩ := El.lasting_reading (.seq shape.kind) hl₂.grown htail
      obtain ⟨r, st', hrest⟩ := ih hl'.means (hl'.quiet hquiet) htail
        (fun st' y hy => hends st' y (.later hgives hwrite hy)) (congrArg Shown.trail hshown)
      exact ⟨_, st', .passed hgives hwrite hrest⟩

theorem Puts.refused_of_error (h : shape.Puts st s r st') {refusal : Refusal} (hr : r = .error refusal) :
    shape.Refused st s := by
  induction h with
  | ended => cases hr
  | refused h hx => exact ⟨_, _, .here h, hx⟩
  | @passed _ _ _ _ _ _ _ _ r h hx _ ih =>
    cases r with
    | ok texts => cases hr
    | error refusal' =>
      obtain ⟨st'', y, hy, hflagged⟩ := ih (congrArg Except.error (Except.error.inj hr))
      exact ⟨st'', y, .later h hx hy, hflagged⟩

theorem Refused.puts (h : shape.Refused st s) : ∃ st', shape.Puts st s (.error .unbounded) st' := by
  obtain ⟨st', y, hmeets, hflagged⟩ := h
  induction hmeets with
  | here h => exact ⟨_, .refused h hflagged⟩
  | later h hx _ ih =>
    obtain ⟨st'', hrest⟩ := ih hflagged
    exact ⟨st'', .passed h hx hrest⟩

/-- The texts of a course without refusal are those of the data. -/
theorem Puts.sound (h : shape.Puts st s r st') (hst : st.Means w) (hs : Formed w s) {texts : List String}
    (hr : r = .ok texts) : ∃ data, shape.Holds (trail w s) data ∧ texts = data.map shape.dataText := by
  induction h generalizing w texts with
  | ended h =>
    obtain rfl := Except.ok.inj hr
    exact ⟨[], ⟨[], lists_of_ended hst hs h, .nil⟩, rfl⟩
  | refused => cases hr
  | @passed _ _ _ _ _ _ _ _ r h hx _ ih =>
    obtain ⟨w₂, v, datum, hl, hshows, rfl, htail, hlists⟩ := lists_of_written hst hs h hx
    obtain ⟨more, rfl, rfl⟩ : ∃ more, r = .ok more ∧ shape.dataText datum :: more = texts := by
      cases r with
      | error refusal => cases hr
      | ok more => exact ⟨more, rfl, Except.ok.inj hr⟩
    obtain ⟨data, ⟨values, hvalues, hdata⟩, rfl⟩ := ih hl.means htail rfl
    exact ⟨datum :: data, ⟨v :: values, (hlists _).2 ⟨values, rfl, hvalues⟩, .cons hshows hdata⟩, rfl⟩

theorem Puts.serialize (h : shape.Puts st s r st') (hs : ¬ st.isUnbounded s = true) :
    Gives (fun fuel => shape.serialize fuel s) st (r.map arrayText) st' := by
  obtain ⟨N, hN⟩ := h.traverse #[]
  refine ⟨N, fun n hn => (serialize_eq _ n s st).trans ((if_neg hs).trans ?_)⟩
  rw [map_eq_pure_bind]
  refine Run.bind_eq_ok.2 ⟨_, st', hN n n hn hn, ?_⟩
  cases r <;> simp [closing, Except.map] <;> rfl

end Courses

section Reading

def Fits : (shape : Shape) → shape.Data → Prop
  | nat, n => n < 2 ^ 64
  | entry, (i, _) => i < 2 ^ 64
  | _, _ => True

def element : (shape : Shape) → shape.Data → El shape.kind
  | int, n => n
  | nat, n => n
  | text, s => s
  | optional, n => n
  | entry, p => p
  | nested, ns => .ofList ns

def array (shape : Shape) (data : List shape.Data) : String := arrayText (data.map shape.dataText)

theorem intText_toList (n : Int64) : (intText n).toList = Number.integerText n.toInt := String.toList_ofList

theorem natText_toList (n : ℕ) : (natText n).toList = Number.integerText n := String.toList_ofList

theorem reads_reader (shape : Shape) : Reads shape.reader fun y cs =>
    ∃ x, (shape.Fits x ∧ cs = (shape.dataText x).toList) ∧ shape.element x = y := by
  cases shape with
  | int =>
    refine Typed.reads_int64.mono fun h => ?_
    obtain ⟨x, ⟨-, rfl⟩, rfl⟩ := h
    exact intText_toList x
  | nat =>
    refine Typed.reads_nat64.mono fun h => ?_
    obtain ⟨x, ⟨hx, rfl⟩, rfl⟩ := h
    exact ⟨hx, natText_toList x⟩
  | text =>
    refine Typed.reads_text.mono fun h => ?_
    obtain ⟨x, ⟨-, rfl⟩, rfl⟩ := h
    rfl
  | optional =>
    refine (Typed.reads_optional Typed.reads_int64 ?_).mono fun h => ?_
    · rintro n _ rfl
      obtain ⟨c, cs, hc, hfirst⟩ := Json.integerText_begins n.toInt
      rw [hc]
      rintro ⟨⟩
      exact absurd hfirst (by decide)
    · obtain ⟨x, ⟨-, rfl⟩, rfl⟩ := h
      cases x with
      | none => rfl
      | some n => exact intText_toList n
  | entry =>
    refine (Typed.reads_pair Typed.reads_nat64 Typed.reads_int64).mono fun h => ?_
    obtain ⟨⟨i, n⟩, ⟨hi, rfl⟩, rfl⟩ := h
    refine ⟨_, _, ⟨hi, rfl⟩, rfl, ?_⟩
    simp [dataText, element, intText_toList, natText_toList]
  | nested =>
    refine ((Typed.reads_list Typed.reads_int64).map Node.ofList).mono fun h => ?_
    obtain ⟨ns, ⟨-, rfl⟩, rfl⟩ := h
    refine ⟨ns, Typed.listText_brackets ?_, rfl⟩
    exact List.forall₂_map_right_iff.2 (List.forall₂_same.2 fun n _ => intText_toList n)

theorem deserialize_array {data : List shape.Data} (h : ∀ x ∈ data, shape.Fits x) :
    shape.deserialize (shape.array data) = .ok (.ofList (data.map shape.element)) := by
  have htext : Typed.ListText (fun y cs => ∃ x, (shape.Fits x ∧ cs = (shape.dataText x).toList) ∧
      shape.element x = y) (data.map shape.element) (shape.array data).toList :=
    Typed.listText_brackets (List.forall₂_map_left_iff.2 (List.forall₂_map_right_iff.2
      (List.forall₂_same.2 fun x hx => ⟨x, ⟨h x hx, rfl⟩, rfl⟩)))
  rw [deserialize, (Typed.reads_list shape.reads_reader).run htext]
  rfl

def value : (shape : Shape) → shape.Data → Value shape.kind
  | int, n => n
  | nat, n => n
  | text, s => s
  | optional, n => n
  | entry, p => p
  | nested, ns => .ofList ns

theorem reading_element (w : World Atom) (x : shape.Data) :
    El.reading shape.kind w (shape.element x) (shape.value x) := by
  cases shape with
  | nested => exact Sequence.reading_ofList (El.list_reading_base.2 rfl)
  | optional =>
    cases x with
    | none => exact El.reading_none w _
    | some n => exact El.reading_some ⟨trivial, rfl⟩
  | entry => exact ⟨⟨trivial, trivial⟩, rfl⟩
  | _ => exact ⟨trivial, rfl⟩

theorem shows_value (x : shape.Data) : shape.Shows (shape.value x) x := by
  cases shape with
  | nested => exact Lists.listed x
  | _ => exact rfl

theorem holds_elements (w : World Atom) (data : List shape.Data) :
    Formed w (Node.ofList (data.map shape.element) : Sequence shape.kind) ∧
      shape.Holds (trail w (Node.ofList (data.map shape.element))) data := by
  have hread : (El.reading shape.kind).list w (data.map shape.element) (data.map shape.value) :=
    List.forall₂_map_left_iff.2 (List.forall₂_map_right_iff.2 (List.forall₂_same.2 fun x _ =>
      shape.reading_element w x))
  obtain ⟨hformed, hshown⟩ := Sequence.reading_ofList hread
  refine ⟨hformed, data.map shape.value, ?_, ?_⟩
  · have htrail : trail w (Node.ofList (data.map shape.element)) = Trail.listed (data.map shape.value) :=
      congrArg Shown.trail hshown
    rw [htrail]
    exact Lists.listed _
  · exact List.forall₂_map_left_iff.2 (List.forall₂_same.2 fun x _ => shows_value x)

end Reading

section Laws
variable {s : Sequence shape.kind} {data more : List shape.Data}

theorem Meets.stands (h : shape.Meets st s st' x) (hst : st.Means w) (hs : Formed w s)
    {values : List (Value shape.kind)} (hvalues : Lists (trail w s) values) :
    ∃ w' v, st.Leads w st' w' ∧ El.reading shape.kind w' x v ∧ v ∈ values := by
  induction h generalizing w values with
  | here h =>
    obtain ⟨w₁, v, hl, hread, -, hlists⟩ := lists_of_reached hst hs h
    obtain ⟨more, rfl, -⟩ := (hlists values).1 hvalues
    exact ⟨w₁, v, hl, hread, List.mem_cons_self⟩
  | later h hx _ ih =>
    obtain ⟨w₂, v₀, -, hl, -, -, htail, hlists⟩ := lists_of_written hst hs h hx
    obtain ⟨more, rfl, hmore⟩ := (hlists values).1 hvalues
    obtain ⟨w', v, hl', hread, hv⟩ := ih hl.means htail hmore
    exact ⟨w', v, hl.trans hl', hread, List.mem_cons_of_mem _ hv⟩

theorem exists_shows {values : List (Value shape.kind)} (h : List.Forall₂ shape.Shows values data)
    {v : Value shape.kind} (hv : v ∈ values) : ∃ x, shape.Shows v x := by
  induction h with
  | nil => cases hv
  | cons hx _ ih =>
    obtain rfl | hv := List.mem_cons.1 hv
    · exact ⟨_, hx⟩
    · exact ih hv

variable (hst : st.Means w) (hquiet : ∀ id, ¬ st.Running id) (hs : Formed w s)
include hst hquiet hs

theorem Holds.unique (h : shape.Holds (trail w s) data) (h' : shape.Holds (trail w s) more) :
    data = more := by
  obtain ⟨_, _, _, hgives, -, rfl⟩ := (toVecs_adequate hst hs).gives hquiet h
  obtain ⟨_, _, _, hgives', -, rfl⟩ := (toVecs_adequate hst hs).gives hquiet h'
  exact (hgives.unique hgives').1

theorem Holds.ends (h : shape.Holds (trail w s) data) : shape.Ends st s ∧ ¬ shape.Refused st s := by
  obtain ⟨values, hvalues, hdata⟩ := h
  have hshows : ∀ st' x, shape.Meets st s st' x →
      ∃ w' v y, st.Leads w st' w' ∧ El.reading shape.kind w' x v ∧ shape.Shows v y := by
    intro st' x hx
    obtain ⟨w', v, hl, hread, hv⟩ := hx.stands hst hs hvalues
    obtain ⟨y, hy⟩ := exists_shows hdata hv
    exact ⟨w', v, y, hl, hread, hy⟩
  constructor
  · intro st' x hx _
    obtain ⟨w', v, y, hl, hread, hy⟩ := hshows st' x hx
    obtain ⟨_, st'', _, hgives, -⟩ := (look_adequate hl.means hread).gives (hl.quiet hquiet) hy
    obtain ⟨fuel, hrun⟩ := hgives.run
    exact ⟨fuel, _, st'', hrun⟩
  · rintro ⟨st', x, hx, hflagged⟩
    obtain ⟨w', v, y, hl, hread, hy⟩ := hshows st' x hx
    exact not_flagged hl.means hread hy hflagged

/-- A finite sequence is refused if an inner one is, and otherwise it is written with the text of its data. -/
theorem serialize_outcome {values : List (Value shape.kind)} (hvalues : Lists (trail w s) values)
    (hends : shape.Ends st s) :
    (shape.Refused st s ∧ ∃ st', Gives (fun fuel => shape.serialize fuel s) st (.error .unbounded) st') ∨
      (¬ shape.Refused st s ∧ ∃ data, shape.Holds (trail w s) data ∧
        ∃ st', Gives (fun fuel => shape.serialize fuel s) st (.ok (shape.array data)) st') := by
  have hbounded := not_unbounded hst hs hvalues
  by_cases h : shape.Refused st s
  · obtain ⟨st', hputs⟩ := h.puts
    exact .inl ⟨h, st', hputs.serialize hbounded⟩
  · obtain ⟨r, st', hputs⟩ := exists_puts hvalues hst hquiet hs hends
    cases r with
    | error refusal => exact absurd (hputs.refused_of_error rfl) h
    | ok texts =>
      obtain ⟨data, hdata, rfl⟩ := hputs.sound hst hs rfl
      exact .inr ⟨h, data, hdata, st', hputs.serialize hbounded⟩

theorem serialize_of_holds (h : shape.Holds (trail w s) data) :
    ∃ st', Gives (fun fuel => shape.serialize fuel s) st (.ok (shape.array data)) st' := by
  obtain ⟨hends, hnot⟩ := h.ends hst hquiet hs
  obtain ⟨values, hvalues, hdata⟩ := h
  obtain ⟨hrefused, -⟩ | ⟨-, more, hmore, hgives⟩ := serialize_outcome hst hquiet hs hvalues hends
  · exact absurd hrefused hnot
  · rwa [Holds.unique hst hquiet hs ⟨values, hvalues, hdata⟩ hmore]

theorem toVecs_gives (h : shape.Holds (trail w s) data) :
    ∃ st', Gives (fun fuel => shape.toVecs fuel s) st data st' := by
  obtain ⟨_, st', _, hgives, -, rfl⟩ := (toVecs_adequate hst hs).gives hquiet h
  exact ⟨st', hgives⟩

end Laws

end Shape

/-- What writing a sequence comes to; `shape` is the type of the elements. -/
structure Serializes (st : Store Atom) (w : World Atom) (shape : Shape) : Prop where
  unbounded : ∀ {s : Sequence shape.kind}, st.isUnbounded s = true → ∀ fuel,
    shape.serialize fuel s st = .ok (.error .unbounded, st)
  fails : ∀ {s : Sequence shape.kind}, Formed w s →
    (∃ fuel xs st', Sequence.toList fuel s st = .ok (xs, st')) → shape.Ends st s →
    ((∃ refusal st', Gives (fun fuel => shape.serialize fuel s) st (.error refusal) st') ↔ shape.Refused st s)
  written : ∀ {s : Sequence shape.kind}, Formed w s →
    (∃ fuel xs st', Sequence.toList fuel s st = .ok (xs, st')) → shape.Ends st s → ¬ shape.Refused st s →
    ∃ data, (∃ st', Gives (fun fuel => shape.toVecs fuel s) st data st') ∧
      (∃ st', Gives (fun fuel => shape.serialize fuel s) st (.ok (shape.array data)) st') ∧
      ((∀ x ∈ data, shape.Fits x) → ∃ t, shape.deserialize (shape.array data) = .ok t ∧
        ∃ st', Gives (fun fuel => shape.toVecs fuel t) st data st')
  same : ∀ {s t : Sequence shape.kind} {st₁ : Store Atom} {w₁ : World Atom} {data : List shape.Data},
    Formed w s → st₁.Means w₁ → (∀ id, ¬ st₁.Running id) → Formed w₁ t →
    (∃ fuel st', shape.toVecs fuel s st = .ok (data, st')) →
    (∃ fuel st', shape.toVecs fuel t st₁ = .ok (data, st')) →
    ∃ text st' st₁', Gives (fun fuel => shape.serialize fuel s) st (.ok text) st' ∧
      Gives (fun fuel => shape.serialize fuel t) st₁ (.ok text) st₁'

theorem serializes {st : Store Atom} {w : World Atom} (hst : st.Means w) (hquiet : ∀ id, ¬ st.Running id)
    (shape : Shape) : Serializes st w shape where
  unbounded {s} h fuel := (serialize_eq _ fuel s st).trans (if_pos h)
  fails {s} hs hfinite hends := by
    obtain ⟨fuel, xs, st', hlist⟩ := hfinite
    obtain ⟨values, -, hvalues, -, -⟩ := Sequence.lists_of_toList hst hs hlist
    obtain ⟨hrefused, st₁, hgives⟩ | ⟨hnot, data, -, st₁, hgives⟩ :=
      Shape.serialize_outcome hst hquiet hs hvalues hends
    · exact iff_of_true ⟨_, st₁, hgives⟩ hrefused
    · refine iff_of_false ?_ hnot
      rintro ⟨refusal, st₂, hfails⟩
      exact nomatch (hfails.unique hgives).1
  written {s} hs hfinite hends hnot := by
    obtain ⟨fuel, xs, st', hlist⟩ := hfinite
    obtain ⟨values, -, hvalues, -, -⟩ := Sequence.lists_of_toList hst hs hlist
    obtain ⟨hrefused, -⟩ | ⟨-, data, hdata, hgives⟩ := Shape.serialize_outcome hst hquiet hs hvalues hends
    · exact absurd hrefused hnot
    · refine ⟨data, Shape.toVecs_gives hst hquiet hs hdata, hgives, fun hfits => ?_⟩
      obtain ⟨ht, hread⟩ := Shape.holds_elements w data
      exact ⟨_, Shape.deserialize_array hfits, Shape.toVecs_gives hst hquiet ht hread⟩
  same {s t st₁ w₁ data} hs hst₁ hquiet₁ ht hdata hdata' := by
    obtain ⟨fuel, _, hrun⟩ := hdata
    obtain ⟨fuel', _, hrun'⟩ := hdata'
    obtain ⟨_, _, -, hholds, rfl⟩ := (Shape.toVecs_adequate hst hs).sound hrun
    obtain ⟨_, _, -, hholds', rfl⟩ := (Shape.toVecs_adequate hst₁ ht).sound hrun'
    obtain ⟨st', hgives⟩ := Shape.serialize_of_holds hst hquiet hs hholds
    obtain ⟨st₁', hgives'⟩ := Shape.serialize_of_holds hst₁ hquiet₁ ht hholds'
    exact ⟨_, st', st₁', hgives, hgives'⟩

/-- After every run of a program the text of a sequence is made of its elements alone, and read back; what is
known to be endless is refused, also inside. -/
theorem serializing_lawful {program : List (Step Atom)} {fuel : ℕ} {env : Env Atom} {st : Store Atom}
    (h : Program.run fuel program [] Store.empty = .ok (env, st)) :
    ∃ w : World Atom, st.Means w ∧ (∀ id, ¬ st.Running id) ∧ (∀ r ∈ env, El.Formed w r.1 r.2) ∧
      ∀ shape, Serializes st w shape := by
  obtain ⟨vs, w, -, hkept⟩ := Program.run_keeps program kept_empty h
  exact ⟨w, hkept.means, hkept.quiet, formed_of_reads hkept.reads, serializes hkept.means hkept.quiet⟩

def bracketing : List (Step Atom) :=
  have int : (El.reading (.int : Kind Atom)).Plain := El.plain_reading trivial
  [.make (k := .int) (.fromVec (.plain int.list ([1, -2] : List Int64))) [],
   .make (k := .int) (.defer none Make.empty.producer) [],
   .make (k := .seq .int) (.one (.held .int 0)) [1],
   .make (k := .seq .int) (.cons (.held .int 0) 1) [0, 2]]

theorem bracketing_lawful :
    Shape.nested.array [[1, -2], []] = "[[1,-2],[]]" ∧
      ∃ env st, Program.run 10 bracketing [] Store.empty = .ok (env, st) ∧
        (∃ st', Gives (fun fuel => Shape.nested.serialize fuel (env.seq (.seq .int) 3)) st
          (.ok (Shape.nested.array [[1, -2], []])) st') ∧
        ∃ w : World Atom, st.Means w ∧ (∀ id, ¬ st.Running id) ∧ (∀ r ∈ env, El.Formed w r.1 r.2) ∧
          ∀ shape, Serializes st w shape := by
  obtain ⟨env, st, hrun, st', hdata⟩ : ∃ env st, Program.run 10 bracketing [] Store.empty = .ok (env, st) ∧
      ∃ st', Shape.nested.toVecs 20 (env.seq (.seq .int) 3) st = .ok ([[1, -2], []], st') :=
    ⟨_, _, rfl, _, rfl⟩
  obtain ⟨vs, w, -, hkept⟩ := Program.run_keeps bracketing kept_empty hrun
  have hs : Formed w (env.seq Shape.nested.kind 3) := (seq_reads hkept.reads _ 3).1
  obtain ⟨_, _, -, hholds, rfl⟩ := (Shape.toVecs_adequate hkept.means hs).sound hdata
  exact ⟨by decide +kernel, env, st, hrun, Shape.serialize_of_holds hkept.means hkept.quiet hs hholds,
    serializing_lawful hrun⟩

end MemoSequence
