import MemoSequence.Json.Parser
import MemoSequence.Proofs.Json.Integers
import MemoSequence.Proofs.Json.Objects
set_option autoImplicit false

namespace MemoSequence
open Reader (Takes isBlank)

def Blank (cs : List Char) : Prop := ∀ c ∈ cs, isBlank c = true

instance (cs : List Char) : Decidable (Blank cs) := List.decidableBAll (fun c => isBlank c = true) cs

section Presented
variable {α : Type}

inductive Following (P : α → List Char → Prop) : List α → List Char → Prop
  | nil {blanks : List Char} (hb : Blank blanks) : Following P [] blanks
  | cons {blanks blanks' text more : List Char} {x : α} {xs : List α} (hb : Blank blanks)
      (hb' : Blank blanks') (hx : P x text) (hxs : Following P xs more) :
      Following P (x :: xs) (blanks ++ ',' :: (blanks' ++ (text ++ more)))

/-- Items with commas between them, and blanks anywhere around them. -/
inductive Listed (P : α → List Char → Prop) : List α → List Char → Prop
  | nil {blanks : List Char} (hb : Blank blanks) : Listed P [] blanks
  | cons {blanks text more : List Char} {x : α} {xs : List α} (hb : Blank blanks) (hx : P x text)
      (hxs : Following P xs more) : Listed P (x :: xs) (blanks ++ (text ++ more))

inductive Named (P : α → List Char → Prop) : String × α → List Char → Prop
  | member {key : String} {x : α} {name blanks blanks' text : List Char}
      (hname : Spells key.toList name) (hb : Blank blanks) (hb' : Blank blanks') (hx : P x text) :
      Named P (key, x) ('"' :: (name ++ '"' :: (blanks ++ ':' :: (blanks' ++ text))))

namespace Json

inductive Plain : Json → List Char → Prop
  | null : Plain .null ['n', 'u', 'l', 'l']
  | true : Plain (.bool true) ['t', 'r', 'u', 'e']
  | false : Plain (.bool false) ['f', 'a', 'l', 's', 'e']
  | integer {n : ℤ} (hlow : -2 ^ 63 ≤ n) (hhigh : n < 2 ^ 64) :
      Plain (.number (.integer n)) (toString n).toList
  | text {s : String} {spelled : List Char} (h : Spells s.toList spelled) :
      Plain (.text s) ('"' :: (spelled ++ ['"']))

/-- The text of a value whose items and members are presented by `Inner`. Of a key that is written more
than once the last value counts. -/
inductive Layered (Inner : Json → List Char → Prop) : Json → List Char → Prop
  | plain {v : Json} {text : List Char} (h : Plain v text) : Layered Inner v text
  | array {items : List Json} {body : List Char} (h : Listed Inner items body) :
      Layered Inner (.array items) ('[' :: (body ++ [']']))
  | object {members written : List (String × Json)} {body : List Char}
      (h : Listed (Named Inner) written body) (hordered : Members.Ordered members)
      (hlast : ∀ key, Members.find? key members = Members.find? key written.reverse) :
      Layered Inner (.object members) ('\x7b' :: (body ++ ['\x7d']))

def Presented : (depth : ℕ) → Json → List Char → Prop
  | 0 => Plain
  | depth + 1 => Layered (Presented depth)

end Json

end Presented

section Blanks
variable {blanks rest : List Char} {c : Char}

theorem blank_nil : Blank [] := nofun

theorem takes_peek (hb : Blank blanks) (hc : isBlank c = false) (rest : List Char) :
    Takes Reader.peek? (blanks ++ c :: rest) (some c) (c :: rest) := by
  have hdrop : (blanks ++ c :: rest).dropWhile isBlank = c :: rest := by
    rw [List.dropWhile_append_of_pos hb, List.dropWhile_cons_of_neg (by simp [hc])]
  have hskip : Takes Reader.skipBlanks (blanks ++ c :: rest) () (c :: rest) :=
    congrArg (fun rest => Except.ok ((), rest)) hdrop
  exact hskip.bind rfl

theorem stops_blank (hb : Blank blanks) (hrest : Stops rest) : Stops (blanks ++ rest) := by
  cases blanks with
  | nil => exact hrest
  | cons c blanks => exact .inl (hb c List.mem_cons_self)

end Blanks

def Begins : List Char → Prop
  | [] => False
  | c :: _ => isBlank c = false ∧ c ≠ ']'

/-- The reader takes what presents a value, whatever may follow it. -/
structure Reads {α : Type} (item : Reader α) (P : α → List Char → Prop) : Prop where
  begins : ∀ {x : α} {text : List Char}, P x text → Begins text
  takes : ∀ {x : α} {blanks text rest : List Char}, P x text → Blank blanks → Stops rest →
    Takes item (blanks ++ (text ++ rest)) x rest

section Lists
variable {α : Type} {item : Reader α} {P : α → List Char → Prop} {xs : List α}
  {blanks blanks' text body : List Char}

theorem Following.stops (h : Following P xs body) {c : Char} (hc : Stops (c :: text)) :
    Stops (body ++ c :: text) := by
  cases h with
  | nil hb => exact stops_blank hb hc
  | cons hb _ _ _ =>
    rw [List.append_assoc]
    exact stops_blank hb (.inr (by simp))

theorem takes_nextItem_close (first : Bool) (hb : Blank blanks) (rest : List Char) :
    Takes (Reader.nextItem first) (blanks ++ ']' :: rest) false (']' :: rest) :=
  (takes_peek hb rfl rest).bind rfl

theorem takes_nextItem_first (hb : Blank blanks) (ht : Begins text) (rest : List Char) :
    Takes (Reader.nextItem true) (blanks ++ (text ++ rest)) true (text ++ rest) := by
  cases text with
  | nil => exact ht.elim
  | cons c text =>
    obtain ⟨hblank, hclose⟩ := ht
    refine (takes_peek hb hblank _).bind ?_
    simp only [if_true]
    rfl

theorem takes_nextItem_more (hb : Blank blanks) (hb' : Blank blanks') (ht : Begins text)
    (rest : List Char) :
    Takes (Reader.nextItem false) (blanks ++ ',' :: (blanks' ++ (text ++ rest))) true
      (text ++ rest) := by
  cases text with
  | nil => exact ht.elim
  | cons c text =>
    obtain ⟨hblank, hclose⟩ := ht
    refine (takes_peek hb rfl _).bind ((Reader.takes_skip _ _).bind ?_)
    refine (takes_peek hb' hblank _).bind ?_
    split
    · next hnone => cases hnone
    · next hsome => exact absurd (Option.some.inj hsome) hclose
    · rfl

theorem Following.length_le (h : Following P xs body) : xs.length ≤ body.length := by
  induction h with
  | nil _ => exact Nat.zero_le _
  | cons _ _ _ _ ih =>
    simp only [List.length_cons, List.length_append]
    omega

/-- A loop that gathers items up to a closing character: it ends there, and takes every item from behind
the comma, the first one without. -/
structure Gathers {α : Type} (gather : List Char → Bool → List α → Reader (List α)) (close : Char)
    (P : α → List Char → Prop) : Prop where
  stops : ∀ rest, Stops (close :: rest)
  nonempty : ∀ {x : α} {text : List Char}, P x text → text ≠ []
  ends : ∀ {blanks : List Char} (c : Char) (clock : List Char) (first : Bool) (seen : List α)
    (rest : List Char), Blank blanks →
      Takes (gather (c :: clock) first seen) (blanks ++ close :: rest) seen.reverse rest
  begins : ∀ {x : α} {xs seen : List α} {blanks text rest out : List Char} (c : Char)
    (clock : List Char), Blank blanks → P x text → Stops rest →
      Takes (gather clock false (x :: seen)) rest xs out →
        Takes (gather (c :: clock) true seen) (blanks ++ (text ++ rest)) xs out
  further : ∀ {x : α} {xs seen : List α} {blanks blanks' text rest out : List Char} (c : Char)
    (clock : List Char), Blank blanks → Blank blanks' → P x text → Stops rest →
      Takes (gather clock false (x :: seen)) rest xs out →
        Takes (gather (c :: clock) false seen) (blanks ++ ',' :: (blanks' ++ (text ++ rest))) xs out

section Gathers
variable {gather : List Char → Bool → List α → Reader (List α)} {close : Char}

theorem Following.gathered (hg : Gathers gather close P) (h : Following P xs body)
    {clock : List Char} (hclock : xs.length < clock.length) (seen : List α) (rest : List Char) :
    Takes (gather clock false seen) (body ++ close :: rest) (seen.reverse ++ xs) rest := by
  induction h generalizing clock seen with
  | nil hb =>
    cases clock with
    | nil => simp at hclock
    | cons c clock =>
      rw [List.append_nil]
      exact hg.ends c clock false seen rest hb
  | @cons blanks blanks' text more x xs hb hb' hx hxs ih =>
    cases clock with
    | nil => simp at hclock
    | cons c clock =>
      have hrest := ih (Nat.lt_of_succ_lt_succ hclock) (x :: seen)
      rw [List.reverse_cons, List.append_assoc, List.singleton_append] at hrest
      simp only [List.append_assoc, List.cons_append]
      exact hg.further c clock hb hb' hx (hxs.stops (hg.stops rest)) hrest

theorem Listed.gathered (hg : Gathers gather close P) (h : Listed P xs body) (rest : List Char) :
    Takes (gather (body ++ close :: rest) true []) (body ++ close :: rest) xs rest := by
  obtain ⟨c, clock, hclock⟩ : ∃ c clock, body ++ close :: rest = c :: clock :=
    List.exists_cons_of_ne_nil (by simp)
  cases h with
  | nil hb =>
    have hends := hg.ends c clock true [] rest hb
    rw [← hclock] at hends
    exact hends
  | @cons blanks text more x xs hb hx hxs =>
    have hshort : xs.length < clock.length := by
      have hlength := congrArg List.length hclock
      have hmore := hxs.length_le
      have htext := List.length_pos_iff.2 (hg.nonempty hx)
      simp only [List.length_cons, List.length_append] at hlength
      omega
    have hrest := hxs.gathered hg hshort [x] rest
    have htakes := hg.begins c clock hb hx (hxs.stops (hg.stops rest)) hrest
    rw [← hclock] at htakes
    simpa only [List.append_assoc, List.reverse_singleton, List.singleton_append] using htakes

end Gathers

theorem items_gathers (hitem : Reads item P) : Gathers (Reader.items item) ']' P where
  stops _ := .inr (by simp)
  nonempty hx := by
    rintro rfl
    exact hitem.begins hx
  ends c clock first seen rest hb := (takes_nextItem_close first hb rest).bind rfl
  begins c clock hb hx hrest h :=
    (takes_nextItem_first hb (hitem.begins hx) _).bind ((hitem.takes hx blank_nil hrest).bind h)
  further c clock hb hb' hx hrest h :=
    (takes_nextItem_more hb hb' (hitem.begins hx) _).bind
      ((hitem.takes hx blank_nil hrest).bind h)

end Lists

section Members
variable {α β : Type} {item : Reader α} {P : α → List Char → Prop} {m : String × α}
  {blanks blanks' text : List Char}

theorem takes_nextMember_close (first : Bool) (hb : Blank blanks) (rest : List Char) :
    Takes (Reader.nextMember first) (blanks ++ '\x7d' :: rest) false ('\x7d' :: rest) :=
  (takes_peek hb rfl rest).bind rfl

theorem takes_nextMember_first (hb : Blank blanks) (hm : Named P m text) (rest : List Char) :
    Takes (Reader.nextMember true) (blanks ++ (text ++ rest)) true (text ++ rest) := by
  cases hm with
  | member _ _ _ _ => exact (takes_peek hb rfl _).bind rfl

theorem takes_nextMember_more (hb : Blank blanks) (hb' : Blank blanks') (hm : Named P m text)
    (rest : List Char) :
    Takes (Reader.nextMember false) (blanks ++ ',' :: (blanks' ++ (text ++ rest))) true
      (text ++ rest) := by
  cases hm with
  | member _ _ _ _ =>
    refine (takes_peek hb rfl _).bind ((Reader.takes_skip _ _).bind ?_)
    exact (takes_peek hb' rfl _).bind rfl

theorem Named.takes (hitem : Reads item P) (h : Named P m text) {rest out : List Char}
    (hrest : Stops rest) {f : String × α → Reader β} {y : β} (hf : Takes (f m) rest y out) :
    Takes (do
      Reader.skip
      let key ← Strings.read
      Reader.colon
      let x ← item
      f (key, x)) (text ++ rest) y out := by
  cases h with
  | @member key x name blanks blanks' text hname hb hb' hx =>
    have hkey := hname.takes (blanks ++ ':' :: (blanks' ++ (text ++ rest)))
    rw [String.ofList_toList] at hkey
    have hcolon : Takes Reader.colon (blanks ++ ':' :: (blanks' ++ (text ++ rest))) ()
        (blanks' ++ (text ++ rest)) := (takes_peek hb rfl _).bind (Reader.takes_skip _ _)
    simp only [List.cons_append, List.append_assoc]
    exact (Reader.takes_skip _ _).bind (hkey.bind (hcolon.bind ((hitem.takes hx hb' hrest).bind hf)))

theorem members_gathers (hitem : Reads item P) :
    Gathers (Reader.members item) '\x7d' (Named P) where
  stops _ := .inr (by simp)
  nonempty hm := by
    cases hm with
    | member _ _ _ _ => exact List.cons_ne_nil _ _
  ends c clock first seen rest hb := (takes_nextMember_close first hb rest).bind rfl
  begins {m xs seen _ _ _ _} c clock hb hm hrest h := by
    have htakes := hm.takes hitem hrest (f := fun m => item.members clock false (m :: seen)) h
    exact (takes_nextMember_first hb hm _).bind htakes
  further {m xs seen _ _ _ _ _} c clock hb hb' hm hrest h := by
    have htakes := hm.takes hitem hrest (f := fun m => item.members clock false (m :: seen)) h
    exact (takes_nextMember_more hb hb' hm _).bind htakes

end Members

namespace Json
variable {v : Json} {blanks text rest : List Char} {Inner : Json → List Char → Prop}

theorem integerText_begins (n : ℤ) :
    ∃ c cs, Number.integerText n = c :: cs ∧ (c = '-' ∨ c.isDigit = true) := by
  by_cases hsign : n < 0
  · exact ⟨'-', _, if_pos hsign, .inl rfl⟩
  · obtain ⟨c, cs, hc, -⟩ := Number.decimal_eq_cons n.natAbs
    exact ⟨c, cs, (if_neg hsign).trans hc, .inr (Number.decimal_isDigit (hc ▸ List.mem_cons_self))⟩

theorem begins_number {c : Char} (hc : c = '-' ∨ c.isDigit = true) :
    isBlank c = false ∧ c ≠ ']' := by
  have hne : ∀ d : Char, d ≠ '-' → d.isDigit = false → c ≠ d := by
    rintro d hminus hdigit rfl
    obtain h | h := hc
    · exact hminus h
    · simp [h] at hdigit
  have hblank : isBlank c = false := by
    simp [isBlank, hne ' ' (by decide) (by decide), hne '\n' (by decide) (by decide),
      hne '\t' (by decide) (by decide), hne '\r' (by decide) (by decide)]
  exact ⟨hblank, hne ']' (by decide) (by decide)⟩

theorem Plain.begins (h : Plain v text) : Begins text := by
  cases h with
  | null => exact ⟨rfl, by decide⟩
  | true => exact ⟨rfl, by decide⟩
  | false => exact ⟨rfl, by decide⟩
  | @integer n _ _ =>
    obtain ⟨c, cs, hc, hfirst⟩ := integerText_begins n
    rw [toString_int, hc]
    exact begins_number hfirst
  | text _ => exact ⟨rfl, by decide⟩

theorem takes_number (inner : Option (Reader Json)) {c : Char} (hc : c = '-' ∨ c.isDigit = true)
    {cs : List Char} {x : Number} (hb : Blank blanks) (h : Takes Numeral.read (c :: cs) x rest) :
    Takes (valueWith inner) (blanks ++ c :: cs) (.number x) rest := by
  refine (takes_peek hb (begins_number hc).1 cs).bind ?_
  split
  · next hnone => cases hnone
  · next hsome => exact absurd hc (Option.some.inj hsome ▸ by decide)
  · next hsome => exact absurd hc (Option.some.inj hsome ▸ by decide)
  · next hsome => exact absurd hc (Option.some.inj hsome ▸ by decide)
  · next hsome => exact absurd hc (Option.some.inj hsome ▸ by decide)
  · next hsome => exact absurd hc (Option.some.inj hsome ▸ by decide)
  · next hsome => exact absurd hc (Option.some.inj hsome ▸ by decide)
  · next hsome =>
    obtain rfl := Option.some.inj hsome
    rw [if_pos hc]
    exact h.bind (Reader.takes_pure _ rest)

theorem Plain.takes (h : Plain v text) (inner : Option (Reader Json)) (hb : Blank blanks)
    (hrest : Stops rest) : Takes (valueWith inner) (blanks ++ (text ++ rest)) v rest := by
  cases h with
  | null => exact (takes_peek hb rfl _).bind rfl
  | true => exact (takes_peek hb rfl _).bind rfl
  | false => exact (takes_peek hb rfl _).bind rfl
  | @integer n hlow hhigh =>
    have hread := Numeral.takes_read hlow hhigh hrest
    obtain ⟨c, cs, hc, hfirst⟩ := integerText_begins n
    rw [toString_int, hc]
    rw [hc] at hread
    exact takes_number inner hfirst hb hread
  | @text s spelled hs =>
    have hread := hs.takes rest
    rw [String.ofList_toList] at hread
    simp only [List.cons_append, List.append_assoc, List.nil_append]
    exact (takes_peek hb rfl _).bind
      ((Reader.takes_skip _ _).bind (hread.bind (Reader.takes_pure (Json.text s) rest)))

theorem Layered.reads {value : Reader Json} (h : Reads value Inner) :
    Reads (valueWith (some value)) (Layered Inner) where
  begins hv := by
    cases hv with
    | plain h => exact h.begins
    | array _ => exact ⟨rfl, by decide⟩
    | object _ _ _ => exact ⟨rfl, by decide⟩
  takes {v blanks text rest} hv hb hrest := by
    cases hv with
    | plain h => exact h.takes _ hb hrest
    | @array items body hitems =>
      have hread := hitems.gathered (items_gathers h) rest
      simp only [List.cons_append, List.append_assoc, List.nil_append]
      exact (takes_peek hb rfl _).bind ((Reader.takes_skip _ _).bind
        (Reader.takes_get_bind (hread.bind (Reader.takes_pure (Json.array items) rest))))
    | @object members written body hmembers hordered hlast =>
      have hread := hmembers.gathered (members_gathers h) rest
      have hobject := Members.ofList_eq hordered hlast
      simp only [List.cons_append, List.append_assoc, List.nil_append]
      refine (takes_peek hb rfl _).bind ((Reader.takes_skip _ _).bind
        (Reader.takes_get_bind (hread.bind ?_)))
      rw [hobject]
      exact Reader.takes_pure _ rest

/-- What presents a value is read as that value. -/
theorem presented_reads (depth : ℕ) : Reads (value depth) (Presented depth) := by
  induction depth with
  | zero => exact ⟨Plain.begins, fun h hb hrest => h.takes none hb hrest⟩
  | succ depth ih => exact Layered.reads ih

end Json

end MemoSequence
