import MemoSequence.Proofs.Demand.Pulling
import MemoSequence.Proofs.Lists
set_option autoImplicit false

namespace MemoSequence

variable {ι : Type} [Basis ι] {a k : Kind ι} {F G H I R : Feed k} {l l' l'' : List Note} {n m : ℕ}
  {vs ws us : List (Val k)}

section Scans
variable {α β τ : Type}

theorem scanValues_concat (g : τ × α → β × τ) (t : τ) (values : List α) (x : α) :
    ∃ t', scanValues g t (values ++ [x]) = scanValues g t values ++ [(g (t', x)).1] := by
  induction values generalizing t with
  | nil => exact ⟨t, rfl⟩
  | cons y rest ih =>
    obtain ⟨t', hrest⟩ := ih (g (t, y)).2
    exact ⟨t', congrArg (List.cons _) hrest⟩

theorem scanOutputs_single (g : τ × α → β × τ) (t : τ) (values : List α) :
    scanOutputs (fun x => ([(g x).1], (g x).2)) t values = scanValues g t values := by
  induction values generalizing t with
  | nil => rfl
  | cons x rest ih => rw [scanOutputs, scanValues, ih, List.singleton_append]

theorem scanValues_positions (i : ℕ) (values : List α) :
    scanValues (fun x : ℕ × α => (x, x.1 + 1)) i values = (values.zipIdx i).map Prod.swap := by
  induction values generalizing i with
  | nil => rfl
  | cons x rest ih => rw [scanValues, List.zipIdx_cons, List.map_cons, ih, Prod.swap_prod_mk]

end Scans

def Plan.choice (p : El k → Bool) (x : El k) : Plan k := if p x then .single x else .empty

namespace Feed

theorem draws_nil (n : ℕ) : (.nil : Feed k).Draws n [] [] .nil := by
  cases n with
  | zero => exact .zero _
  | succ n => exact .ended .nil

theorem draws_single (x : El k) (n : ℕ) : (Plan.single x).feed.Draws (n + 1) [.here x] [] .nil := by
  have hfeed : (Plan.single x).feed = .item (.here x) .nil := by
    simp [Plan.single, Node.single, Plan.feed, ofParts]
  rw [hfeed]
  exact .more (.item _ _) (draws_nil n)

theorem draws_empty (n : ℕ) : (Plan.empty : Plan k).feed.Draws n [] [] .nil := by
  have hfeed : (Plan.empty : Plan k).feed = .nil := by simp [Plan.empty, Plan.feed, ofParts]
  rw [hfeed]
  exact draws_nil n

theorem Draws.length_le (h : F.Draws n vs l R) : vs.length ≤ n := by
  induction n generalizing F vs l with
  | zero =>
    cases h
    exact le_rfl
  | succ n ih =>
    cases h with
    | more _ hrest => exact Nat.succ_le_succ (ih hrest)
    | ended _ => exact Nat.zero_le _

theorem Draws.split (h : F.Draws (m + n) vs l R) :
    ∃ l₁ l₂ G, F.Draws m (vs.take m) l₁ G ∧ G.Draws n (vs.drop m) l₂ R ∧ l = l₁ ++ l₂ := by
  induction m generalizing F vs l with
  | zero =>
    rw [Nat.zero_add] at h
    exact ⟨[], l, F, .zero F, h, rfl⟩
  | succ m ih =>
    rw [Nat.succ_add] at h
    cases h with
    | more hfirst hrest =>
      obtain ⟨l₁, l₂, G, hdraws, hmore, rfl⟩ := ih hrest
      exact ⟨_, l₂, G, .more hfirst hdraws, hmore, (List.append_assoc ..).symm⟩
    | ended hended => exact ⟨l, [], .nil, .ended hended, draws_nil n, (List.append_nil l).symm⟩

inductive Steps : {k : Kind ι} → Feed k → List (Val k) → List (List Note) → Feed k → Prop
  | nil {k : Kind ι} (F : Feed k) : Steps F [] [] F
  | cons {k : Kind ι} {F G R : Feed k} {v : Val k} {vs : List (Val k)} {l : List Note} {ls : List (List Note)}
      (hfirst : F.Pulls l (some (v, G))) (hrest : Steps G vs ls R) : Steps F (v :: vs) (l :: ls) R

theorem Draws.steps (h : F.Draws n vs l R) (hn : vs.length = n) : ∃ ls, F.Steps vs ls R ∧ ls.flatten = l := by
  induction n generalizing F vs l with
  | zero =>
    cases h
    exact ⟨[], .nil _, rfl⟩
  | succ n ih =>
    cases h with
    | more hfirst hrest =>
      obtain ⟨ls, hsteps, rfl⟩ := ih hrest (Nat.succ.inj hn)
      exact ⟨_ :: ls, .cons hfirst hsteps, rfl⟩
    | ended _ => cases hn

theorem Steps.of_append {us : List (Val k)} {ls ls' : List (List Note)} (h : F.Steps (vs ++ us) (ls ++ ls') R)
    (hlen : ls.length = vs.length) : ∃ G, F.Steps vs ls G ∧ G.Steps us ls' R := by
  induction vs generalizing F ls with
  | nil =>
    obtain rfl := List.length_eq_zero_iff.1 hlen
    exact ⟨F, .nil F, h⟩
  | cons v vs ih =>
    obtain ⟨l, ls, rfl⟩ := List.exists_cons_of_length_eq_add_one hlen
    cases h with
    | cons hfirst hrest =>
      obtain ⟨G, hvs, hus⟩ := ih hrest (Nat.succ.inj hlen)
      exact ⟨G, .cons hfirst hvs, hus⟩

theorem Steps.length_eq {ls : List (List Note)} (h : F.Steps vs ls R) : ls.length = vs.length := by
  induction h with
  | nil _ => rfl
  | cons _ _ ih => exact congrArg Nat.succ ih

theorem Steps.draws {ls : List (List Note)} (h : F.Steps vs ls R) : F.Draws vs.length vs ls.flatten R := by
  induction h with
  | nil F => exact .zero F
  | cons hfirst _ ih => exact .more hfirst ih

theorem Steps.take {ls : List (List Note)} (h : F.Steps vs ls R) (i : ℕ) :
    ∃ G, F.Steps (vs.take i) (ls.take i) G := by
  rw [← List.take_append_drop i vs, ← List.take_append_drop i ls] at h
  have hlen : (ls.take i).length = (vs.take i).length := by
    simp only [List.length_take]
    have hall := h.length_eq
    simp only [List.take_append_drop] at hall
    rw [hall]
  obtain ⟨G, htaken, -⟩ := h.of_append hlen
  exact ⟨G, htaken⟩

theorem Draws.steps_last {v : Val k} (h : F.Draws (vs.length + 1) (vs ++ [v]) l R) :
    ∃ ls l', F.Steps (vs ++ [v]) (ls ++ [l']) R ∧ ls.flatten ++ l' = l := by
  obtain ⟨ls, hsteps, rfl⟩ := h.steps (by simp)
  obtain rfl | ⟨ls, l', rfl⟩ := List.eq_nil_or_concat' ls
  · simpa using hsteps.length_eq
  · exact ⟨ls, l', hsteps, by simp⟩

theorem Draws.steps_ended (h : F.Draws (vs.length + 1) vs l R) :
    ∃ ls l' G, F.Steps vs ls G ∧ G.Pulls l' none ∧ ls.flatten ++ l' = l := by
  obtain ⟨l₁, l', G, hbefore, hend, rfl⟩ := h.split
  rw [List.take_length] at hbefore
  rw [List.drop_length] at hend
  obtain ⟨ls, hsteps, rfl⟩ := hbefore.steps rfl
  cases hend with
  | ended hend => exact ⟨ls, l', G, hsteps, hend, rfl⟩

theorem Draws.of_short (h : F.Draws n vs l R) (hlt : vs.length < n) : F.Draws (vs.length + 1) vs l .nil := by
  induction n generalizing F vs l with
  | zero => exact absurd hlt (Nat.not_lt_zero _)
  | succ n ih =>
    cases h with
    | more hfirst hrest => exact .more hfirst (ih hrest (Nat.lt_of_succ_lt_succ hlt))
    | ended hended => exact .ended hended

section Append

def Goes (H : Feed k) : Option (Val k × Feed k) → List Note → Option (Val k × Feed k) → Prop
  | some (v, G), l, r => l = [] ∧ r = some (v, G.append H)
  | none, l, r => H.Pulls l r

theorem Pulls.append {k : Kind ι} {F H : Feed k} {l l' : List Note} {r r' : Option (Val k × Feed k)} :
    F.Pulls l r → Goes H r l' r' → (F.append H).Pulls (l ++ l') r'
  | .nil, hH => hH
  | .item v F, hH => by
    obtain ⟨rfl, rfl⟩ := hH
    exact .item v (F.append H)
  | .numbered hx F, hH => by
    obtain ⟨rfl, rfl⟩ := hH
    rw [List.append_nil, append_assoc]
    exact .numbered hx (F.append H)
  | .stage hinput hleaves h, hH => by
    have hrest := h.append hH
    rw [append_assoc] at hrest
    rw [List.append_assoc _ _ l']
    exact .stage hinput hleaves hrest
  | .skip hinput h, hH => by
    have hrest := h.append hH
    rw [append_assoc] at hrest
    rw [List.append_assoc _ _ l']
    exact .skip hinput hrest

theorem Pulls.append_some {v : Val k} (h : F.Pulls l (some (v, G))) (H : Feed k) :
    (F.append H).Pulls l (some (v, G.append H)) := by
  have hgoes : Goes H (some (v, G)) [] (some (v, G.append H)) := ⟨rfl, rfl⟩
  have hpull := h.append hgoes
  rwa [List.append_nil] at hpull

theorem Draws.append_within (h : F.Draws n vs l R) (hn : vs.length = n) (H : Feed k) :
    (F.append H).Draws n vs l (R.append H) := by
  induction n generalizing F vs l with
  | zero =>
    cases h
    exact .zero _
  | succ n ih =>
    cases h with
    | more hfirst hrest => exact .more (hfirst.append_some H) (ih hrest (Nat.succ.inj hn))
    | ended _ => cases hn

theorem Draws.append_beyond (h : F.Draws (vs.length + 1) vs l R) (hH : H.Draws (m + 1) ws l' G) :
    (F.append H).Draws (vs.length + (m + 1)) (vs ++ ws) (l ++ l') G := by
  induction vs generalizing F l with
  | nil =>
    rw [List.length_nil, Nat.zero_add]
    cases h with
    | ended hended =>
      cases hH with
      | more hfirst hrest =>
        rw [← List.append_assoc]
        exact .more (hended.append hfirst) hrest
      | ended hended' => exact .ended (hended.append hended')
  | cons v vs ih =>
    cases h with
    | more hfirst hrest =>
      rw [List.length_cons, Nat.succ_add, List.append_assoc]
      exact .more (hfirst.append_some H) (ih hrest)

theorem Draws.append_single (h : F.Draws (m + 1) vs l R) (x : El k) (hm : vs.length = m) (hn : m < n) :
    ∃ R', (F.append (Plan.single x).feed).Draws n (vs ++ [.here x]) l R' := by
  subst hm
  obtain ⟨j, rfl⟩ := Nat.exists_eq_add_of_lt hn
  have hdraws := h.append_beyond (draws_single x j)
  rw [List.append_nil] at hdraws
  exact ⟨_, hdraws⟩

end Append

section Numbered
variable {source : Source (El k)} {limit : Option ℕ} {g : ℕ → El k}

def reading (index : ℕ) (limit : Option ℕ) (source : Source (El k)) : Feed k :=
  if Source.Below limit index then .numbered index limit source .nil else .nil

theorem ofParts_following (index : ℕ) (limit : Option ℕ) (source : Source (El k)) :
    ofParts (Node.following index limit source).parts = reading (index + 1) limit source := by
  cases limit with
  | none => rfl
  | some c =>
    unfold Node.following reading
    simp only [Source.below_some, ← Nat.not_le]
    split <;> simp [ofParts, *]

theorem pulls_numbered {index : ℕ} {x : El k} (hx : source.at? index = some x) (limit : Option ℕ) :
    (Feed.numbered index limit source .nil).Pulls (source.note index).toList
      (some (.here x, reading (index + 1) limit source)) := by
  rw [← ofParts_following, ← append_nil (ofParts _)]
  exact .numbered hx .nil

theorem draws_reading {index : ℕ} {ys : List (El k)} (hlen : ys.length ≤ n)
    (hat : ∀ i (h : i < ys.length), Source.Below limit (index + i) ∧ source.at? (index + i) = some ys[i])
    (hend : ys.length < n → ¬ Source.Below limit (index + ys.length)) :
    ∃ R, (reading index limit source).Draws n (ys.map .here)
      ((List.range' index ys.length).filterMap source.note) R := by
  induction ys generalizing index n with
  | nil =>
    cases n with
    | zero => exact ⟨_, .zero _⟩
    | succ n =>
      have hnot : ¬ Source.Below limit index := hend (Nat.succ_pos n)
      rw [reading, if_neg hnot]
      exact ⟨_, draws_nil (n + 1)⟩
  | cons y ys ih =>
    obtain ⟨n, rfl⟩ := Nat.exists_eq_add_of_le' (Nat.le_trans (Nat.succ_le_succ (Nat.zero_le _)) hlen)
    obtain ⟨hbelow, hx⟩ : Source.Below limit index ∧ source.at? index = some y := hat 0 (Nat.succ_pos _)
    have hat' : ∀ i (h : i < ys.length),
        Source.Below limit (index + 1 + i) ∧ source.at? (index + 1 + i) = some ys[i] := fun i hi => by
      rw [Nat.add_right_comm]
      exact hat (i + 1) (Nat.succ_lt_succ hi)
    obtain ⟨R, hrest⟩ := ih (Nat.le_of_succ_le_succ hlen) hat' fun hlt => by
      rw [Nat.add_right_comm]
      exact hend (Nat.succ_lt_succ hlt)
    have hpull := pulls_numbered hx limit
    refine ⟨R, ?_⟩
    rw [reading, if_pos hbelow, List.length_cons, List.range'_succ, List.filterMap_cons, List.map_cons]
    cases hnote : source.note index with
    | none =>
      rw [hnote] at hpull
      exact .more hpull hrest
    | some note =>
      rw [hnote] at hpull
      exact .more hpull hrest

theorem draws_ofFn (f : Fn ℕ (El k)) (n : ℕ) :
    ∃ R, (ofParts (Node.ofFn f).parts).Draws n (((List.range n).map f.apply).map .here)
      ((List.range n).filterMap f.note) R := by
  have hat : ∀ i (h : i < ((List.range n).map f.apply).length), Source.Below none (0 + i) ∧
      (Source.rule f).at? (0 + i) = some ((List.range n).map f.apply)[i] :=
    fun i hi => ⟨Source.below_none _, by simp [Source.at?]⟩
  obtain ⟨R, hdraws⟩ := draws_reading (n := n) (by simp) hat (by simp)
  rw [List.length_map, List.length_range, ← List.range_eq_range'] at hdraws
  exact ⟨R, hdraws⟩

theorem draws_limited (source : Source (El k)) (xs : List (El k)) (hnote : ∀ i, source.note i = none)
    (hat : ∀ i (h : i < xs.length), source.at? i = some xs[i]) (n : ℕ) :
    ∃ R, (reading 0 (some xs.length) source).Draws n ((xs.take n).map .here) [] R := by
  have hat' : ∀ i (h : i < (xs.take n).length), Source.Below (some xs.length) (0 + i) ∧
      source.at? (0 + i) = some (xs.take n)[i] := fun i hi => by
    have hlt : i < xs.length := hi.trans_le (List.length_take_le' n xs)
    rw [Nat.zero_add, Source.below_some, List.getElem_take]
    exact ⟨hlt, hat i hlt⟩
  have hdraws := draws_reading (n := n) (by simp) hat' fun hlt => by
    rw [Source.below_some, Nat.zero_add]
    simp only [List.length_take] at hlt ⊢
    omega
  rwa [List.filterMap_eq_nil_iff.2 fun i _ => hnote i] at hdraws

theorem draws_ofList (xs : List (El k)) (n : ℕ) :
    ∃ R, (ofParts (Node.ofList xs).parts).Draws n ((xs.take n).map .here) [] R := by
  have hparts : ofParts (Node.ofList xs).parts = reading 0 (some xs.length) (.slice xs.toArray) := by
    cases xs with
    | nil => rfl
    | cons x xs => simp [Node.ofList, Node.ofArray, reading, ofParts]
  rw [hparts]
  exact draws_limited (.slice xs.toArray) xs (fun _ => rfl) (fun i hi => by simp [Source.at?, hi]) n

theorem closed_ofList (xs : List (El k)) : (Node.ofList xs).Closed := by
  intro id hid
  unfold Node.ofList Node.ofArray at hid
  split at hid <;> simp at hid

theorem draws_upTo (count n : ℕ) :
    ∃ R, (ofParts (Node.upTo (some count)).parts : Feed (.nat : Kind ι)).Draws n
      (((List.range count).take n).map fun i => .here (k := .nat) i) [] R := by
  have hparts : (ofParts (Node.upTo (some count)).parts : Feed (.nat : Kind ι)) =
      reading (k := .nat) 0 (some count) (.rule (.silent id)) := by
    cases count with
    | zero => rfl
    | succ count => simp [Node.upTo, reading, ofParts]
  have hdraws := draws_limited (ι := ι) (k := .nat) (.rule (.silent id)) (List.range count)
    (fun _ => rfl) (fun i hi => by simp [Source.at?, Fn.silent]) n
  rwa [List.length_range, ← hparts] at hdraws

end Numbered

section Stages
variable {S : Stage a k} {I J : Feed a} {answer : Option (Val a × Feed a)}

theorem Draws.stage (hinput : I.Pulls l answer) (hleaves : S.Leaves answer l' G)
    (h : G.Draws (n + 1) vs l'' R) : (through S I).Draws (n + 1) vs (l ++ l' ++ l'') R := by
  cases h with
  | more hfirst hrest =>
    rw [← List.append_assoc]
    exact .more (.stage hinput hleaves (by rwa [append_nil])) hrest
  | ended hended => exact .ended (.stage hinput hleaves (by rwa [append_nil]))

theorem draws_stage_ended (h : I.Pulls l none) : (through S I).Draws (n + 1) [] l .nil := by
  have hdraws := Draws.stage h (.ended S) (draws_nil (n + 1))
  rwa [List.append_nil, List.append_nil] at hdraws

theorem draws_stage_more {S' : Stage a k} {v : Val k} {x : Val a} (hinput : I.Pulls l (some (x, J)))
    (hleaves : S.Leaves (some (x, J)) [] (.item v (through S' J)))
    (hrest : (through S' J).Draws n vs l' R) : (through S I).Draws (n + 1) (v :: vs) (l ++ l') R := by
  have hdraws := Draws.stage hinput hleaves (.more (.item v _) hrest)
  rwa [List.append_nil] at hdraws

section Workers
variable {σ : Type} {W : Worker a k σ} {note : σ × El a → Option Note} {s s' : σ} {xs : List (El a)}
  {ys : List (El k)}

/-- From the state `s`, the worker makes `ys` of the elements `xs`. -/
inductive Emits (W : Worker a k σ) : σ → List (El a) → List (El k) → σ → Prop
  | nil (s : σ) : Emits W s [] [] s
  | cons {s s' s'' : σ} {x : El a} {y : El k} {xs : List (El a)} {ys : List (El k)}
      (h : W.head (s, x) = some (.element y, s')) (hrest : Emits W s' xs ys s'') :
      Emits W s (x :: xs) (y :: ys) s''

theorem leaves_went (hnote : ∀ call, note call = none) {x : El a} {y : El k}
    (h : W.head (s, x) = some (.element y, s')) :
    (Stage.worker W note s).Leaves (some (.here x, J)) []
      (.item (.here y) (through (.worker W note s') J)) := by
  have hleaves : (Stage.worker W note s).Leaves (some (.here x, J)) (note (s, x)).toList
      (.item (.here y) (through (.worker W note s') J)) := .went h
  rwa [hnote] at hleaves

theorem leaves_stopped (hnote : ∀ call, note call = none) {x : El a} (h : W.head (s, x) = none) :
    (Stage.worker W note s).Leaves (some (.here x, J)) [] .nil := by
  have hleaves : (Stage.worker W note s).Leaves (some (.here x, J)) (note (s, x)).toList .nil := .stopped h
  rwa [hnote] at hleaves

theorem draws_worker (hnote : ∀ call, note call = none) (hemits : Emits W s xs ys s')
    (h : I.Draws n (xs.map .here) l J) :
    ∃ R, (through (.worker W note s) I).Draws n (ys.map .here) l R := by
  induction hemits generalizing n I l with
  | nil s =>
    cases h with
    | zero _ => exact ⟨_, .zero _⟩
    | ended h => exact ⟨_, draws_stage_ended h⟩
  | @cons s s' s'' x y xs ys hhead _ ih =>
    cases h with
    | more hfirst hrest =>
      obtain ⟨R, hdraws⟩ := ih hrest
      exact ⟨R, draws_stage_more hfirst (leaves_went hnote hhead) hdraws⟩

theorem draws_worker_any {vs : List (Val a)} (step : σ → σ) (hnote : ∀ call, note call = none)
    (hhead : ∀ s x, ∃ y, W.head (s, x) = some (.element y, step s)) (h : I.Draws n vs l J) :
    ∃ R, (through (.worker W note s) I).Draws n (vs.map fun _ => .anything) l R := by
  induction vs generalizing n I l s with
  | nil =>
    cases h with
    | zero _ => exact ⟨_, .zero _⟩
    | ended h => exact ⟨_, draws_stage_ended h⟩
  | cons v vs ih =>
    cases h with
    | more hfirst hrest =>
      obtain ⟨R, hdraws⟩ := ih hrest
      exact ⟨R, draws_stage_more hfirst (.passed (hhead s) hnote) hdraws⟩

theorem draws_worker_stopped (hnote : ∀ call, note call = none) (hemits : Emits W s xs ys s') {x : El a}
    (hstop : W.head (s', x) = none) (hn : xs.length < n)
    (h : I.Draws (xs.length + 1) ((xs ++ [x]).map .here) l J) :
    ∃ R, (through (.worker W note s) I).Draws n (ys.map .here) l R := by
  induction hemits generalizing n I l with
  | nil s =>
    obtain ⟨n, rfl⟩ : ∃ j, n = j + 1 := ⟨n - 1, by omega⟩
    cases h with
    | more hfirst hrest =>
      cases hrest
      have hdraws := Draws.stage hfirst (leaves_stopped hnote hstop) (draws_nil (n + 1))
      rw [List.append_nil] at hdraws
      exact ⟨_, hdraws⟩
  | @cons s s' s'' y z xs ys hhead _ ih =>
    obtain ⟨n, rfl⟩ : ∃ j, n = j + 1 := ⟨n - 1, by omega⟩
    cases h with
    | more hfirst hrest =>
      obtain ⟨R, hdraws⟩ := ih hstop (Nat.lt_of_succ_lt_succ hn) hrest
      exact ⟨R, draws_stage_more hfirst (leaves_went hnote hhead) hdraws⟩

theorem leaves_mapped (f : El a → El k) (note : Unit × El a → Option Note) (x : El a) :
    (Stage.worker (.map f) note ()).Leaves (some (.here x, J)) (note ((), x)).toList
      (.item (.here (f x)) (through (.worker (.map f) note ()) J)) := .went rfl

theorem draws_map_noted {f : El a → El k} {note : Unit × El a → Option Note}
    (h : I.Draws n (xs.map .here) l J) (hl : l = []) :
    ∃ R, (through (.worker (.map f) note ()) I).Draws n ((xs.map f).map .here)
      (xs.filterMap fun x => note ((), x)) R := by
  induction xs generalizing n I l with
  | nil =>
    subst hl
    cases h with
    | zero _ => exact ⟨_, .zero _⟩
    | ended h => exact ⟨_, draws_stage_ended h⟩
  | cons x xs ih =>
    cases h with
    | more hfirst hrest =>
      obtain ⟨rfl, rfl⟩ := List.append_eq_nil_iff.1 hl
      obtain ⟨R, hdraws⟩ := ih hrest rfl
      have hall := Draws.stage hfirst (leaves_mapped f note x) (.more (.item _ _) hdraws)
      refine ⟨R, ?_⟩
      rw [List.filterMap_eq_flatMap_toList] at hall ⊢
      exact hall

theorem emits_map (f : El a → El k) (xs : List (El a)) : Emits (.map f) () xs (xs.map f) () := by
  induction xs with
  | nil => exact .nil ()
  | cons x xs ih => exact .cons rfl ih

theorem emits_scan (g : σ × El a → El k × σ) (s : σ) (xs : List (El a)) :
    ∃ s', Emits (.scan g) s xs (scanValues g s xs) s' := by
  induction xs generalizing s with
  | nil => exact ⟨s, .nil s⟩
  | cons x xs ih =>
    obtain ⟨s', hrest⟩ := ih (g (s, x)).2
    exact ⟨s', .cons rfl hrest⟩

theorem emits_entries (xs : List (El k)) :
    ∃ i, Emits (.scan fun x : ℕ × El k => (x, x.1 + 1) : Worker k (.pair .nat k) ℕ) 0 xs
      (xs.zipIdx.map Prod.swap) i := by
  rw [← scanValues_positions]
  exact emits_scan (k := .pair .nat k) (fun x : ℕ × El k => (x, x.1 + 1)) 0 xs

theorem emits_stateScan (g : σ × El a → List (El k) × σ) (s : σ) (xs : List (El a)) :
    ∃ s', Emits (.stateScan g) s xs ((scanValues g s xs).map Node.ofList) s' := by
  induction xs generalizing s with
  | nil => exact ⟨s, .nil s⟩
  | cons x xs ih =>
    obtain ⟨s', hrest⟩ := ih (g (s, x)).2
    exact ⟨s', .cons rfl hrest⟩

theorem emits_takeWhile {p : El k → Bool} {xs : List (El k)} (h : ∀ x ∈ xs, p x = true) :
    Emits (.takeWhile p) () xs xs () := by
  induction xs with
  | nil => exact .nil ()
  | cons x xs ih =>
    obtain ⟨hx, hxs⟩ := List.forall_mem_cons.1 h
    exact .cons (if_pos hx) (ih hxs)

end Workers

theorem draws_mapPlan {f : El a → Plan k} {note : El a → Option Note} {vs : List (Val a)} {qs : List (Plan k)}
    (hnote : ∀ x, note x = none) (hqs : List.Forall₂ (Val.Becomes · f ·) vs qs) (h : I.Draws n vs l J) :
    ∃ R, (through (.mapPlan f note) I).Draws n (qs.map .built) l R := by
  induction hqs generalizing n I l with
  | nil =>
    cases h with
    | zero _ => exact ⟨_, .zero _⟩
    | ended h => exact ⟨_, draws_stage_ended h⟩
  | cons hq _ ih =>
    cases h with
    | more hfirst hrest =>
      obtain ⟨R, hdraws⟩ := ih hrest
      exact ⟨R, draws_stage_more hfirst (.built hq hnote) hdraws⟩

end Stages

theorem draws_take {more : ℕ} (h : F.Draws (min n (more + 1)) vs l R) :
    ∃ R', (through (.take more) F).Draws n vs l R' := by
  induction n generalizing more F vs l with
  | zero =>
    rw [Nat.zero_min] at h
    cases h
    exact ⟨_, .zero _⟩
  | succ n ih =>
    rw [Nat.succ_min_succ] at h
    cases h with
    | more hfirst hrest =>
      cases more with
      | zero =>
        rw [Nat.min_zero] at hrest
        cases hrest
        have hdraws := Draws.stage hfirst .last (.more (.item _ .nil) (draws_nil n))
        rw [List.append_nil] at hdraws
        exact ⟨_, hdraws⟩
      | succ more =>
        obtain ⟨R', hdraws⟩ := ih hrest
        exact ⟨R', draws_stage_more hfirst .taken hdraws⟩
    | ended h => exact ⟨_, draws_stage_ended h⟩

theorem draws_skip {count : ℕ} (h : F.Draws (count + (n + 1)) vs l R) :
    (Feed.skip F count .nil).Draws (n + 1) (vs.drop count) l R := by
  obtain ⟨l₁, l₂, G, hpassed, hmore, rfl⟩ := h.split
  generalize vs.drop count = ws at hmore
  cases hmore with
  | more hfirst hrest =>
    rw [← List.append_assoc]
    exact .more (.skip hpassed (by rwa [append_nil])) hrest
  | ended hended => exact .ended (.skip hpassed (by rwa [append_nil]))

section Flatten
variable {I J : Feed (.seq k)} {v : Val (.seq k)} {vs : List (Val (.seq k))} {ls ls' : List (List Note)}

/-- What has been made of the elements `vs` of the input: all of `ws`, with the notes `ls'` of the inner
sequences one by one. -/
def Pours (vs : List (Val (.seq k))) (ws : List (Val k)) (ls' : List (List Note)) : Prop :=
  ∀ ⦃I J : Feed (.seq k)⦄ ⦃ls : List (List Note)⦄ ⦃l : List Note⦄ ⦃n : ℕ⦄ ⦃us : List (Val k)⦄ ⦃R : Feed k⦄,
    I.Steps vs ls J → (through .flatten J).Draws (n + 1) us l R →
      (through .flatten I).Draws (ws.length + (n + 1)) (ws ++ us)
        ((List.zipWith (· ++ ·) ls ls').flatten ++ l) R

theorem pours_nil : Pours ([] : List (Val (.seq k))) [] [] := by
  intro I J ls l n us R hI hJ
  cases hI
  rwa [List.length_nil, Nat.zero_add]

theorem pours_cons {q : Plan k} (hv : v.Opens q) (hq : q.feed.Draws (m + 1) us l R) (hm : us.length = m)
    (hrest : Pours vs ws ls') : Pours (v :: vs) (us ++ ws) (l :: ls') := by
  subst hm
  intro I J ls l' n zs R' hI hJ
  cases hI with
  | cons hfirst hmore =>
    have hinner := hq.append_beyond (m := ws.length + n) (hrest hmore hJ)
    have hdraws := Draws.stage (n := us.length + (ws.length + n)) hfirst (.flattened hv) hinner
    rw [List.append_nil, ← List.append_assoc, ← List.append_assoc, ← List.append_assoc] at hdraws
    rw [List.length_append, Nat.add_assoc, List.zipWith_cons_cons, List.flatten_cons]
    exact hdraws

theorem Pours.last {q : Plan k} (hvs : Pours vs ws ls') (hI : I.Steps (vs ++ [v]) (ls ++ [l]) J)
    (hv : v.Opens q) (hq : q.feed.Draws (n + 1) us l' R) (hn : us.length = n + 1) :
    ∃ R', (through .flatten I).Draws (ws.length + (n + 1)) (ws ++ us)
      ((List.zipWith (· ++ ·) ls ls').flatten ++ (l ++ l')) R' := by
  obtain ⟨G, hbefore, hlast⟩ := hI.of_append (by simpa using hI.length_eq)
  cases hlast with
  | cons hfirst hrest =>
    cases hrest
    have hdraws := Draws.stage hfirst (.flattened hv) (hq.append_within hn _)
    rw [List.append_nil] at hdraws
    exact ⟨_, hvs hbefore hdraws⟩

theorem Pours.ended (hvs : Pours vs ws ls') (hI : I.Steps vs ls J) (hJ : J.Pulls l none)
    (hn : ws.length < n) :
    (through .flatten I).Draws n ws ((List.zipWith (· ++ ·) ls ls').flatten ++ l) .nil := by
  obtain ⟨n, rfl⟩ := Nat.exists_eq_add_of_lt hn
  have hdraws := hvs hI (draws_stage_ended (n := n) hJ)
  rwa [List.append_nil] at hdraws

theorem zipWith_silent (ls : List (List Note)) (hlen : ls.length = n) :
    List.zipWith (· ++ ·) ls (List.replicate n []) = ls := by
  subst hlen
  induction ls with
  | nil => rfl
  | cons l ls ih => rw [List.length_cons, List.replicate_succ, List.zipWith_cons_cons, ih, List.append_nil]

section Silent
variable (hvs : Pours vs ws (List.replicate m [])) (hm : vs.length = m)
include hvs hm

theorem Pours.draws_last {q : Plan k} (hI : I.Draws (m + 1) (vs ++ [v]) l J) (hv : v.Opens q)
    (hq : q.feed.Draws (n + 1) us [] R) (hn : us.length = n + 1) :
    ∃ R', (through .flatten I).Draws (ws.length + (n + 1)) (ws ++ us) l R' := by
  subst hm
  obtain ⟨ls, l', hsteps, rfl⟩ := hI.steps_last
  have hlen : ls.length = vs.length := by simpa using hsteps.length_eq
  have hdraws := hvs.last hsteps hv hq hn
  rwa [zipWith_silent ls hlen, List.append_nil] at hdraws

theorem Pours.draws_ended (hI : I.Draws (m + 1) vs l J) (hn : ws.length < n) :
    (through .flatten I).Draws n ws l .nil := by
  subst hm
  obtain ⟨ls, l', G, hsteps, hend, rfl⟩ := hI.steps_ended
  have hdraws := hvs.ended hsteps hend hn
  rwa [zipWith_silent ls hsteps.length_eq] at hdraws

end Silent

theorem pours_lists (parts : List (List (El k))) :
    Pours ((parts.map Node.ofList).map .here) (parts.flatten.map .here) (List.replicate parts.length []) := by
  induction parts with
  | nil => exact pours_nil
  | cons part parts ih =>
    obtain ⟨R, hpart⟩ := draws_ofList part (part.length + 1)
    rw [List.take_of_length_le (Nat.le_succ _)] at hpart
    rw [List.flatten_cons, List.map_append]
    exact pours_cons (.here (closed_ofList part)) hpart (List.length_map _) ih

theorem draws_flatten_lists {parts : List (List (El k))} {part : List (El k)}
    (hI : I.Draws (parts.length + 1) (((parts ++ [part]).map Node.ofList).map .here) l J)
    (hlt : parts.flatten.length < n) (hle : n ≤ (parts ++ [part]).flatten.length) :
    ∃ R, (through .flatten I).Draws n (((parts ++ [part]).flatten.take n).map .here) l R := by
  obtain ⟨n, rfl⟩ := Nat.exists_eq_add_of_lt hlt
  rw [List.flatten_append, List.flatten_singleton] at hle ⊢
  rw [List.length_append] at hle
  rw [List.map_append, List.map_append] at hI
  obtain ⟨R, hpart⟩ := draws_ofList part (n + 1)
  have hdraws := (pours_lists parts).draws_last (by simp) hI (.here (closed_ofList part)) hpart
    (by simp; omega)
  rw [List.length_map, ← List.map_append] at hdraws
  rw [Nat.add_assoc, List.take_length_add_append]
  exact hdraws

theorem draws_flatten_lists_ended {parts : List (List (El k))}
    (hI : I.Draws (parts.length + 1) ((parts.map Node.ofList).map .here) l J) (hlt : parts.flatten.length < n) :
    (through .flatten I).Draws n (parts.flatten.map .here) l .nil := by
  exact (pours_lists parts).draws_ended (by simp) hI (by rwa [List.length_map])

section StateScan
variable {σ : Type} {note : σ × El a → Option Note} {I J : Feed a} {xs : List (El a)} {s : σ}

theorem draws_stateScanned {g : σ × El a → List (El k) × σ} (hnote : ∀ call, note call = none) {x : El a}
    (hI : I.Draws (xs.length + 1) ((xs ++ [x]).map .here) l J) (hlt : (scanOutputs g s xs).length < n)
    (hle : n ≤ (scanOutputs g s (xs ++ [x])).length) :
    ∃ R, (through .flatten (through (.worker (.stateScan g) note s) I)).Draws n
      (((scanOutputs g s (xs ++ [x])).take n).map .here) l R := by
  obtain ⟨s', hemits⟩ := emits_stateScan g s (xs ++ [x])
  obtain ⟨I', hparts⟩ := draws_worker hnote hemits hI
  obtain ⟨t, hlast⟩ := scanValues_concat g s xs x
  rw [scanOutputs_eq, hlast] at hle ⊢
  rw [scanOutputs_eq] at hlt
  rw [hlast, ← length_scanValues g s xs] at hparts
  exact draws_flatten_lists hparts hlt hle

theorem draws_stateScanned_ended {g : σ × El a → List (El k) × σ} (hnote : ∀ call, note call = none)
    (hI : I.Draws (xs.length + 1) (xs.map .here) l J) (hn : (scanOutputs g s xs).length < n) :
    (through .flatten (through (.worker (.stateScan g) note s) I)).Draws n
      ((scanOutputs g s xs).map .here) l .nil := by
  obtain ⟨s', hemits⟩ := emits_stateScan g s xs
  obtain ⟨I', hparts⟩ := draws_worker hnote hemits hI
  rw [← length_scanValues g s xs] at hparts
  rw [scanOutputs_eq] at hn ⊢
  exact draws_flatten_lists_ended hparts hn

theorem draws_single_outputs (g : σ × El a → El k × σ) (hnote : ∀ call, note call = none)
    (hI : I.Draws n (xs.map .here) l J) :
    ∃ R, (through .flatten (through (.worker (.stateScan fun x => ([(g x).1], (g x).2)) note s) I)).Draws n
      ((scanValues g s xs).map .here) l R := by
  have houtputs := scanOutputs_single g s
  obtain hlt | heq := Nat.lt_or_eq_of_le hI.length_le
  · have hended := hI.of_short hlt
    rw [List.length_map] at hlt hended
    have hdraws := draws_stateScanned_ended (n := n) hnote hended
      (by rwa [houtputs, length_scanValues])
    rw [houtputs] at hdraws
    exact ⟨_, hdraws⟩
  · obtain rfl | ⟨xs, x, rfl⟩ := List.eq_nil_or_concat' xs
    · subst heq
      cases hI
      exact ⟨_, .zero _⟩
    · rw [List.length_map, List.length_append, List.length_singleton] at heq
      subst heq
      have hdraws := draws_stateScanned (n := xs.length + 1) (g := fun x => ([(g x).1], (g x).2)) (s := s)
        hnote hI (by rw [houtputs, length_scanValues]; omega)
        (by rw [houtputs, length_scanValues, List.length_append, List.length_singleton])
      rwa [houtputs, List.take_of_length_le
        (by rw [length_scanValues, List.length_append, List.length_singleton])] at hdraws

end StateScan

section Filter
variable {p : El k → Bool} {note : El k → Option Note} {I J : Feed k} {xs : List (El k)}

theorem closed_choice (p : El k → Bool) (x : El k) : (Plan.choice p x).Closed := by
  unfold Plan.choice
  split <;> simp [Plan.single, Plan.empty, Plan.Closed, Node.Closed, Node.single]

theorem draws_chosen {x : El k} (hx : p x = true) (n : ℕ) :
    (Plan.choice p x).feed.Draws (n + 1) [.here x] [] .nil := by
  rw [Plan.choice, if_pos hx]
  exact draws_single x n

theorem draws_passed_over {x : El k} (hx : p x = false) (n : ℕ) :
    (Plan.choice p x).feed.Draws n [] [] .nil := by
  rw [Plan.choice, hx, if_neg Bool.false_ne_true]
  exact draws_empty n

theorem pours_choice (p : El k → Bool) (xs : List (El k)) :
    Pours ((xs.map (Plan.choice p)).map .built) ((xs.filter p).map .here) (List.replicate xs.length []) := by
  induction xs with
  | nil => exact pours_nil
  | cons x xs ih =>
    cases hx : p x with
    | false =>
      rw [List.filter_cons_of_neg (by simp [hx])]
      exact pours_cons (.built (closed_choice p x)) (draws_passed_over hx 1) rfl ih
    | true =>
      rw [List.filter_cons_of_pos hx]
      exact pours_cons (.built (closed_choice p x)) (draws_chosen hx 1) rfl ih

theorem draws_filter (hnote : ∀ x, note x = none) {x : El k} (hx : p x = true)
    (hI : I.Draws (xs.length + 1) ((xs ++ [x]).map .here) l J) :
    ∃ R, (through .flatten (through (.mapPlan (Plan.choice p) note) I)).Draws ((xs.filter p).length + 1)
      (((xs ++ [x]).filter p).map .here) l R := by
  obtain ⟨I', hparts⟩ := draws_mapPlan hnote (Val.becomes_each fun x _ => closed_choice p x) hI
  rw [List.map_append, List.map_append] at hparts
  have hdraws := (pours_choice p xs).draws_last (by simp) hparts (.built (closed_choice p x))
    (draws_chosen hx 0) rfl
  rw [List.length_map, Nat.zero_add] at hdraws
  rw [List.filter_append, List.map_append, List.filter_singleton]
  simpa [hx] using hdraws

theorem draws_filter_ended (hnote : ∀ x, note x = none) (hI : I.Draws (xs.length + 1) (xs.map .here) l J)
    (hn : (xs.filter p).length < n) :
    (through .flatten (through (.mapPlan (Plan.choice p) note) I)).Draws n ((xs.filter p).map .here) l
      .nil := by
  obtain ⟨I', hparts⟩ := draws_mapPlan hnote (Val.becomes_each fun x _ => closed_choice p x) hI
  exact (pours_choice p xs).draws_ended (by simp) hparts (by rwa [List.length_map])

end Filter

end Flatten

end Feed

end MemoSequence
