import MemoSequence.Json.Parser
import MemoSequence.Proofs.Json.Integers
import MemoSequence.Proofs.Json.Paths
set_option autoImplicit false

namespace MemoSequence
open Reader (Takes)

def Number.InRange : Number → Prop
  | .integer n => -2 ^ 63 ≤ n ∧ n < 2 ^ 64
  | .real _ => True

/-- At most `depth` containers are open at a time, members are in order and integers in range. -/
def Json.Bounded : (depth : ℕ) → Json → Prop
  | _, .number x => x.InRange
  | 0, .array _ => False
  | 0, .object _ => False
  | depth + 1, .array items => ∀ item ∈ items, Bounded depth item
  | depth + 1, .object members =>
    Members.Ordered members ∧ ∀ member ∈ members, Bounded depth member.2
  | _, _ => True

theorem Json.Bounded.ordered {depth : ℕ} {v : Json} (h : v.Bounded depth) : v.Ordered := by
  induction depth generalizing v with
  | zero =>
    cases v with
    | null => exact .null
    | bool b => exact .bool b
    | number x => exact .number x
    | text s => exact .text s
    | array items => exact h.elim
    | object members => exact h.elim
  | succ depth ih =>
    cases v with
    | null => exact .null
    | bool b => exact .bool b
    | number x => exact .number x
    | text s => exact .text s
    | array items => exact .array fun item hitem => ih (h item hitem)
    | object members => exact .object h.1 fun m hm => ih (h.2 m hm)

namespace Reader
variable {α β : Type}

def Ensures (r : Reader α) (P : α → Prop) : Prop :=
  ∀ (input : List Char) (x : α) (rest : List Char), Takes r input x rest → P x

section Rules
variable {P : α → Prop} {Q : β → Prop} {r : Reader α} {f : α → Reader β}

theorem Takes.of_bind {input rest : List Char} {y : β} (h : Takes (r >>= f) input y rest) :
    ∃ x mid, Takes r input x mid ∧ Takes (f x) mid y rest := by
  unfold Takes at h
  rw [StateT.run_bind] at h
  cases hr : StateT.run r input with
  | error fault =>
    rw [hr] at h
    cases h
  | ok p =>
    rw [hr] at h
    exact ⟨p.1, p.2, hr, h⟩

theorem Ensures.bind (hr : Ensures r P) (hf : ∀ x, P x → Ensures (f x) Q) : Ensures (r >>= f) Q := by
  intro input y rest h
  obtain ⟨x, mid, hx, hy⟩ := h.of_bind
  exact hf x (hr _ _ _ hx) _ _ _ hy

theorem ensures_then (hf : ∀ x, Ensures (f x) Q) : Ensures (r >>= f) Q :=
  Ensures.bind (P := fun _ => True) (fun _ _ _ _ => trivial) fun x _ => hf x

theorem ensures_pure {x : α} (hx : P x) : Ensures (pure x) P := by
  intro input y rest h
  obtain ⟨rfl, rfl⟩ := Prod.mk.inj (Except.ok.inj h)
  exact hx

theorem ensures_fail (cause : FaultCause) : Ensures (fail cause) P := nofun

theorem ensures_failNext (cause : FaultCause) : Ensures (failNext cause) P := nofun

theorem ensures_lift {e : Except Fault α} (h : ∀ x, e = .ok x → P x) :
    Ensures (liftM e : Reader α) P := by
  intro input y rest hy
  cases e with
  | error fault => cases hy
  | ok x =>
    obtain ⟨rfl, rfl⟩ := Prod.mk.inj (Except.ok.inj hy)
    exact h x rfl

theorem ensures_items {item : Reader α} (hitem : Ensures item P) (clock : List Char) (first : Bool)
    {seen : List α} (hseen : ∀ x ∈ seen, P x) :
    Ensures (items item clock first seen) fun xs => ∀ x ∈ xs, P x := by
  induction clock generalizing first seen with
  | nil => exact ensures_fail _
  | cons _ clock ih =>
    refine ensures_then fun more => ?_
    cases more with
    | false => exact ensures_then fun _ => ensures_pure (by simpa using hseen)
    | true => exact hitem.bind fun x hx => ih false (by simpa using ⟨hx, hseen⟩)

theorem ensures_members {item : Reader α} (hitem : Ensures item P) (clock : List Char) (first : Bool)
    {seen : List (String × α)} (hseen : ∀ m ∈ seen, P m.2) :
    Ensures (members item clock first seen) fun ms => ∀ m ∈ ms, P m.2 := by
  induction clock generalizing first seen with
  | nil => exact ensures_fail _
  | cons _ clock ih =>
    refine ensures_then fun more => ?_
    cases more with
    | false => exact ensures_then fun _ => ensures_pure (by simpa using hseen)
    | true =>
      refine ensures_then fun _ => ensures_then fun key => ensures_then fun _ => ?_
      refine hitem.bind fun x hx => ih false fun m hm => ?_
      obtain rfl | hm := List.mem_cons.1 hm
      · exact hx
      · exact hseen m hm

end Rules

end Reader

namespace Numeral
open Reader

theorem whole_le {s : Scaled} (h : s.significand ≤ maxSignificand) (c : Char) :
    (s.whole c).significand ≤ maxSignificand := by
  unfold Scaled.whole
  dsimp only
  split
  · next hfits => exact of_decide_eq_true (Bool.and_eq_true_iff.1 hfits).2
  · exact h

theorem foldl_whole_le (ds : List Char) {s : Scaled} (h : s.significand ≤ maxSignificand) :
    (ds.foldl Scaled.whole s).significand ≤ maxSignificand := by
  induction ds generalizing s with
  | nil => exact h
  | cons c ds ih => exact ih (whole_le h c)

theorem real_inRange (negative : Bool) (n : ℕ) (e : ℤ) : Ensures (real negative n e) Number.InRange := by
  unfold real
  split
  · exact ensures_pure trivial
  · exact ensures_fail _

theorem exponentDigits_inRange (negative : Bool) (s : Scaled) (down : Bool) (e : ℕ) (input : List Char) :
    ∀ p, exponentDigits negative s down e input = .ok p → p.1.InRange := by
  have hfinish : ∀ (e : ℕ) (rest : List Char) (p : Number × List Char),
      exponentDigits.finish negative s down e rest = .ok p → p.1.InRange :=
    fun _ _ _ h => real_inRange _ _ _ _ _ _ h
  induction input generalizing e with
  | nil => exact hfinish e []
  | cons c input ih =>
    intro p h
    unfold exponentDigits at h
    dsimp only at h
    split at h
    · split at h
      · exact ih _ p h
      · split at h
        · cases h
        · obtain rfl := Except.ok.inj h
          trivial
    · exact hfinish e _ p h

theorem exponentPart_inRange (negative : Bool) (s : Scaled) :
    Ensures (exponentPart negative s) Number.InRange := by
  refine ensures_then fun input => ?_
  extract_lets behindSign
  have hbehind : ∀ down, Ensures (behindSign down) Number.InRange := by
    refine fun down => ensures_then fun rest => ?_
    split
    · exact ensures_fail _
    · split
      · refine Ensures.bind (P := fun p => p.1.InRange) (ensures_lift ?_) fun p hp =>
          ensures_then fun _ => ensures_pure hp
        exact exponentDigits_inRange negative s down _ _
      · exact ensures_failNext _
  split
  · exact ensures_then fun _ => ensures_then fun _ => hbehind _
  · exact ensures_then fun _ => ensures_then fun _ => hbehind _
  · exact ensures_then fun _ => hbehind _

theorem scaled_inRange (negative : Bool) (s : Scaled) : Ensures (scaled negative s) Number.InRange := by
  refine ensures_then fun input => ?_
  split
  · exact ensures_then fun _ => exponentPart_inRange negative s
  · exact ensures_then fun _ => exponentPart_inRange negative s
  · exact real_inRange _ _ _

theorem integer_inRange (negative : Bool) {n : ℕ} (hn : n ≤ maxSignificand) :
    Ensures (integer negative n) Number.InRange := by
  unfold maxSignificand at hn
  unfold integer
  split
  · refine ensures_pure (P := Number.InRange) ⟨?_, ?_⟩ <;> omega
  · split
    · exact real_inRange _ _ _
    · refine ensures_pure (P := Number.InRange) ⟨?_, ?_⟩ <;> omega

theorem unsigned_inRange (negative : Bool) : Ensures (unsigned negative) Number.InRange := by
  refine ensures_then fun ds => ensures_then fun input => ?_
  split
  · exact ensures_fail _
  · exact ensures_failNext _
  · exact ensures_then fun _ => ensures_failNext _
  · dsimp only
    split
    · refine ensures_then fun _ => ensures_then fun ds => ?_
      split
      · refine ensures_then fun _ => ?_
        split
        · exact ensures_fail _
        · exact ensures_failNext _
      · exact scaled_inRange _ _
    · exact scaled_inRange _ _
    · exact scaled_inRange _ _
    · split
      · exact integer_inRange _ (foldl_whole_le _ (Nat.zero_le _))
      · exact scaled_inRange _ _

theorem read_inRange : Ensures read Number.InRange := by
  refine ensures_then fun input => ?_
  split
  · exact ensures_then fun _ => unsigned_inRange true
  · exact unsigned_inRange false

end Numeral

namespace Json
open Reader

/-- What is true of a reader of values that opens no container, or opens them with `inner`. -/
theorem valueWith_ensures {P : Json → Prop} {inner : Option (Reader Json)} (hnull : P .null)
    (hbool : ∀ b, P (.bool b)) (htext : ∀ s, P (.text s)) (hnumber : ∀ x : Number, x.InRange → P (.number x))
    (harray : ∀ value ∈ inner, ∀ clock, Ensures (items value clock true []) fun xs => P (.array xs))
    (hobject : ∀ value ∈ inner, ∀ clock, Ensures (members value clock true []) fun ms =>
      P (.object (Members.ofList ms))) : Ensures (valueWith inner) P := by
  refine ensures_then fun c => ?_
  split
  · exact ensures_fail _
  · exact ensures_then fun _ => ensures_then fun _ => ensures_pure hnull
  · exact ensures_then fun _ => ensures_then fun _ => ensures_pure (hbool true)
  · exact ensures_then fun _ => ensures_then fun _ => ensures_pure (hbool false)
  · exact ensures_then fun _ => ensures_then fun s => ensures_pure (htext s)
  · split
    · exact ensures_failNext _
    · exact ensures_then fun _ => ensures_then fun clock =>
        (harray _ rfl clock).bind fun _ hxs => ensures_pure hxs
  · split
    · exact ensures_failNext _
    · exact ensures_then fun _ => ensures_then fun clock =>
        (hobject _ rfl clock).bind fun _ hms => ensures_pure hms
  · split
    · exact Numeral.read_inRange.bind fun x hx => ensures_pure (hnumber x hx)
    · exact ensures_failNext _

theorem value_bounded (depth : ℕ) : Ensures (value depth) (Bounded depth) := by
  induction depth with
  | zero =>
    exact valueWith_ensures trivial (fun _ => trivial) (fun _ => trivial) (fun _ hx => hx) nofun nofun
  | succ depth ih =>
    refine valueWith_ensures trivial (fun _ => trivial) (fun _ => trivial) (fun _ hx => hx) ?_ ?_
    · rintro _ ⟨⟩ clock
      exact ensures_items ih clock true (nofun : ∀ x ∈ [], _)
    · rintro _ ⟨⟩ clock input ms rest h
      have hms := ensures_members ih clock true (nofun : ∀ m ∈ [], _) input ms rest h
      exact ⟨Members.ordered_ofList ms, fun m hm => hms m (Members.mem_of_mem_ofList hm)⟩

theorem parse_bounded {text : String} {v : Json} (h : parse text = .ok v) : v.Bounded maxDepth := by
  have hwhole : Ensures (do
      let x ← value maxDepth
      Reader.finish
      return x) (Bounded maxDepth) :=
    (value_bounded maxDepth).bind fun x hx => ensures_then fun _ => ensures_pure hx
  unfold parse Reader.run at h
  dsimp only at h
  split at h
  · next hrun =>
    obtain rfl := Except.ok.inj h
    exact hwhole _ _ _ hrun
  · cases h

end Json

end MemoSequence
