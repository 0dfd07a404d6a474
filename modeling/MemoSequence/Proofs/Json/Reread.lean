import MemoSequence.Proofs.Json.Canonical
import MemoSequence.Proofs.Json.Numerals
set_option autoImplicit false

/-!
# Canonical texts made canonical again

The canonical text of a value is read as the same value but for its numbers: each of them is read from its
own text, and a real need not come out as it was. So a canonical text is its own canonical text exactly if
every number in it is stable. Integers always are; the real `1.1e24` is not, since the reader scales
a rounded significand by a rounded power of ten.
-/
namespace MemoSequence.Json
open Reader (Takes Settles)

mutual

def numbers : Json → List Number
  | .number x => [x]
  | .array items => itemNumbers items
  | .object members => memberNumbers members
  | _ => []

def itemNumbers : List Json → List Number
  | [] => []
  | item :: items => numbers item ++ itemNumbers items

def memberNumbers : List (String × Json) → List Number
  | [] => []
  | (_, value) :: members => numbers value ++ memberNumbers members

end

mutual

/-- The value with every number as it is read from its text, if the reader stops at none of them. -/
def reread? : Json → Option Json
  | .number x => x.reread?.map .number
  | .array items => (rereadItems? items).map .array
  | .object members => (rereadMembers? members).map .object
  | value => some value

def rereadItems? : List Json → Option (List Json)
  | [] => some []
  | item :: items => (reread? item).bind fun item => (rereadItems? items).map (item :: ·)

def rereadMembers? : List (String × Json) → Option (List (String × Json))
  | [] => some []
  | (key, value) :: members =>
    (reread? value).bind fun value => (rereadMembers? members).map ((key, value) :: ·)

end

section Lists
variable {α : Type} {xs : List α}

def listText (text : α → List Char) : (first : Bool) → List α → List Char
  | _, [] => []
  | true, x :: xs => text x ++ listText text false xs
  | false, x :: xs => ',' :: (text x ++ listText text false xs)

def rereadList? (again : α → Option α) : List α → Option (List α)
  | [] => some []
  | x :: xs => (again x).bind fun x => (rereadList? again xs).map (x :: ·)

/-- A loop that reads the items of a list from their texts, up to a closing character. -/
structure Rereads (gather : List Char → Bool → List α → Reader (List α)) (close : Char)
    (text : α → List Char) (again : α → Option α) (xs : List α) : Prop where
  stops : ∀ rest, Stops (close :: rest)
  nonempty : ∀ x ∈ xs, text x ≠ []
  ends : ∀ (c : Char) (clock : List Char) (first : Bool) (seen : List α) (rest : List Char),
    Takes (gather (c :: clock) first seen) (close :: rest) seen.reverse rest
  begins : ∀ x ∈ xs, ∀ (c : Char) (clock : List Char) (seen : List α) (mid rest : List Char)
    (outcome : α → Option (List α)), Stops mid →
      (∀ y ∈ again x, Settles (gather clock false (y :: seen)) mid (outcome y) rest) →
        Settles (gather (c :: clock) true seen) (text x ++ mid) ((again x).bind outcome) rest
  further : ∀ x ∈ xs, ∀ (c : Char) (clock : List Char) (seen : List α) (mid rest : List Char)
    (outcome : α → Option (List α)), Stops mid →
      (∀ y ∈ again x, Settles (gather clock false (y :: seen)) mid (outcome y) rest) →
        Settles (gather (c :: clock) false seen) (',' :: (text x ++ mid)) ((again x).bind outcome) rest

variable {gather : List Char → Bool → List α → Reader (List α)} {close : Char}
  {text : α → List Char} {again : α → Option α}

theorem Rereads.of_cons {x : α} (h : Rereads gather close text again (x :: xs)) :
    Rereads gather close text again xs where
  stops := h.stops
  nonempty y hy := h.nonempty y (List.mem_cons_of_mem x hy)
  ends := h.ends
  begins y hy := h.begins y (List.mem_cons_of_mem x hy)
  further y hy := h.further y (List.mem_cons_of_mem x hy)

theorem stops_listText (h : ∀ rest, Stops (close :: rest)) (xs : List α) (rest : List Char) :
    Stops (listText text false xs ++ close :: rest) := by
  cases xs with
  | nil => exact h rest
  | cons x xs => exact .inr (by simp)

theorem Rereads.settles (h : Rereads gather close text again xs) {clock : List Char}
    (hclock : xs.length < clock.length) (first : Bool) (seen : List α) (rest : List Char) :
    Settles (gather clock first seen) (listText text first xs ++ close :: rest)
      ((rereadList? again xs).map (seen.reverse ++ ·)) rest := by
  induction xs generalizing clock first seen with
  | nil =>
    cases clock with
    | nil => simp at hclock
    | cons c clock =>
      have hends : Settles (gather (c :: clock) first seen) (close :: rest) (some seen.reverse) rest :=
        h.ends c clock first seen rest
      cases first <;> simpa [listText, rereadList?] using hends
  | cons x xs ih =>
    cases clock with
    | nil => simp at hclock
    | cons c clock =>
      have htail : ∀ y ∈ again x, Settles (gather clock false (y :: seen))
          (listText text false xs ++ close :: rest)
          ((rereadList? again xs).map ((y :: seen).reverse ++ ·)) rest :=
        fun y _ => ih h.of_cons (Nat.lt_of_succ_lt_succ hclock) false (y :: seen)
      have houtcome : (rereadList? again (x :: xs)).map (seen.reverse ++ ·) =
          (again x).bind fun y => (rereadList? again xs).map ((y :: seen).reverse ++ ·) := by
        simp [rereadList?, Option.map_bind, Function.comp_def]
      have hstops : Stops (listText text false xs ++ close :: rest) := stops_listText h.stops xs rest
      rw [houtcome]
      cases first with
      | true =>
        rw [listText, List.append_assoc]
        exact h.begins x List.mem_cons_self c clock seen _ rest _ hstops htail
      | false =>
        rw [listText, List.cons_append, List.append_assoc]
        exact h.further x List.mem_cons_self c clock seen _ rest _ hstops htail

theorem length_listText_le (h : ∀ x ∈ xs, text x ≠ []) (first : Bool) :
    xs.length ≤ (listText text first xs).length := by
  induction xs generalizing first with
  | nil => exact Nat.zero_le _
  | cons x xs ih =>
    have htail := ih (fun y hy => h y (List.mem_cons_of_mem x hy)) false
    have hhead := List.length_pos_iff.2 (h x List.mem_cons_self)
    cases first <;> simp only [listText, List.length_cons, List.length_append] <;> omega

theorem Rereads.settles_all (h : Rereads gather close text again xs) (rest : List Char) :
    Settles (gather (listText text true xs ++ close :: rest) true [])
      (listText text true xs ++ close :: rest) (rereadList? again xs) rest := by
  have hlength := length_listText_le h.nonempty true
  have hclock : xs.length < (listText text true xs ++ close :: rest).length := by
    simp only [List.length_append, List.length_cons]
    omega
  have hsettles := h.settles hclock true [] rest
  simpa using hsettles

end Lists

section Values
variable {item : Reader Json} {rest : List Char}

theorem rereadItems?_eq (items : List Json) : rereadItems? items = rereadList? reread? items := by
  induction items with
  | nil => rfl
  | cons x xs ih => rw [rereadItems?, rereadList?, ih]

def rereadMember? (m : String × Json) : Option (String × Json) := (reread? m.2).map (m.1, ·)

theorem rereadMembers?_eq (members : List (String × Json)) :
    rereadMembers? members = rereadList? rereadMember? members := by
  induction members with
  | nil => rfl
  | cons m ms ih =>
    rw [rereadMembers?, rereadList?, ih, rereadMember?, Option.bind_map]
    rfl

def itemText (v : Json) : List Char := characters (tokens v)

def memberText (m : String × Json) : List Char :=
  characters (Quoted.write m.1 :: ":" :: tokens m.2)

theorem characters_intercalate {α : Type} (parts : α → List String) (xs : List α) :
    characters ([","].intercalate (xs.map parts)) =
      listText (fun x => characters (parts x)) true xs := by
  have hmore : ∀ xs : List α, characters ((xs.map parts).map ([","] ++ ·)).flatten =
      listText (fun x => characters (parts x)) false xs := by
    intro xs
    induction xs with
    | nil => rfl
    | cons x xs ih =>
      rw [List.map_cons, List.map_cons, List.flatten_cons, characters_append, characters_append, ih,
        listText, List.append_assoc]
      rfl
  rw [← flatten_afterFirst]
  cases xs with
  | nil => rfl
  | cons x xs =>
    rw [List.map_cons, afterFirst, List.flatten_cons, characters_append, hmore, listText]

theorem itemText_array (items : List Json) :
    itemText (.array items) = '[' :: (listText itemText true items ++ [']']) := by
  rw [itemText, tokens, itemTokens_eq]
  refine (characters_wrapped '[' ']' _).trans ?_
  rw [characters_intercalate tokens items]
  rfl

theorem itemText_object {members : List (String × Json)} (h : Members.Ordered members) :
    itemText (.object members) = '\x7b' :: (listText memberText true members ++ ['\x7d']) := by
  rw [itemText, tokens, inKeyOrder_memberTokens h, memberTokens_eq, List.map_map]
  refine (characters_wrapped '\x7b' '\x7d' _).trans ?_
  exact congrArg (fun body => '\x7b' :: (body ++ ['\x7d']))
    (characters_intercalate (fun m : String × Json => Quoted.write m.1 :: ":" :: tokens m.2) members)

theorem itemText_number (x : Number) : itemText (.number x) = x.write.toList := by
  rw [itemText, tokens, characters_singleton, primitive] <;>
  · intro _ h
    cases h

theorem itemText_text (s : String) : itemText (.text s) = (Quoted.write s).toList := by
  rw [itemText, tokens, characters_singleton, primitive] <;>
  · intro _ h
    cases h

theorem number_begins (x : Number) : ∃ c cs, x.write.toList = c :: cs ∧ (c = '-' ∨ c.isDigit = true) := by
  obtain ⟨text, hwritten, htext | htext⟩ := x.write_written
  · obtain ⟨c, cs, rfl, hdigit⟩ := Number.written_begins hwritten
    exact ⟨c, cs, htext, .inr hdigit⟩
  · exact ⟨'-', text, htext, .inl rfl⟩

theorem number_settles (inner : Option (Reader Json)) (x : Number) (h : Stops rest) :
    Settles (valueWith inner) (x.write.toList ++ rest) (x.reread?.map .number) rest := by
  have hread := x.reread?_settles h
  obtain ⟨c, cs, hc, hfirst⟩ := number_begins x
  rw [hc] at hread ⊢
  refine (takes_peek blank_nil (begins_number hfirst).1 (cs ++ rest)).settles_bind ?_
  split
  · next hnone => cases hnone
  · next hsome => exact absurd hfirst (Option.some.inj hsome ▸ by decide)
  · next hsome => exact absurd hfirst (Option.some.inj hsome ▸ by decide)
  · next hsome => exact absurd hfirst (Option.some.inj hsome ▸ by decide)
  · next hsome => exact absurd hfirst (Option.some.inj hsome ▸ by decide)
  · next hsome => exact absurd hfirst (Option.some.inj hsome ▸ by decide)
  · next hsome => exact absurd hfirst (Option.some.inj hsome ▸ by decide)
  · next hsome =>
    obtain rfl := Option.some.inj hsome
    rw [if_pos hfirst]
    exact hread.map Json.number

theorem itemText_begins {depth : ℕ} {v : Json} (h : v.Bounded depth) : Begins (itemText v) := by
  cases v with
  | null => exact ⟨rfl, by decide⟩
  | bool b => cases b <;> exact ⟨rfl, by decide⟩
  | number x =>
    obtain ⟨c, cs, hc, hfirst⟩ := number_begins x
    rw [itemText_number, hc]
    exact begins_number hfirst
  | text s =>
    rw [itemText_text, Quoted.write, String.toList_ofList]
    exact ⟨rfl, by decide⟩
  | array items =>
    rw [itemText_array]
    exact ⟨rfl, by decide⟩
  | object members =>
    cases depth with
    | zero => exact h.elim
    | succ depth =>
      rw [itemText_object h.1]
      exact ⟨rfl, by decide⟩

theorem items_rereads {items : List Json} (hbegins : ∀ v ∈ items, Begins (itemText v))
    (hitem : ∀ v ∈ items, ∀ rest, Stops rest → Settles item (itemText v ++ rest) (reread? v) rest) :
    Rereads (Reader.items item) ']' itemText reread? items where
  stops _ := .inr (by simp)
  nonempty v hv hnil := by
    have := hbegins v hv
    rw [hnil] at this
    exact this
  ends c clock first seen rest := (takes_nextItem_close first blank_nil rest).bind rfl
  begins v hv c clock seen mid rest outcome hmid h :=
    (takes_nextItem_first blank_nil (hbegins v hv) mid).settles_bind ((hitem v hv mid hmid).bind h)
  further v hv c clock seen mid rest outcome hmid h :=
    (takes_nextItem_more blank_nil blank_nil (hbegins v hv) mid).settles_bind
      ((hitem v hv mid hmid).bind h)

theorem memberText_eq (m : String × Json) : memberText m =
    '"' :: (m.1.toList.flatMap Quoted.escape ++ '"' :: ':' :: itemText m.2) := by
  have hparts : memberText m = (Quoted.write m.1).toList ++ (':' :: itemText m.2) := rfl
  rw [hparts, Quoted.write, String.toList_ofList]
  simp

theorem named_memberText (m : String × Json) : Named (fun _ _ => True) m (memberText m) :=
  named_tokens trivial

theorem memberText_settles {m : String × Json} {β : Type} {f : String × Json → Reader β} {mid : List Char}
    {outcome : String × Json → Option β} (hmid : Stops mid)
    (hitem : ∀ rest, Stops rest → Settles item (itemText m.2 ++ rest) (reread? m.2) rest)
    (h : ∀ y ∈ rereadMember? m, Settles (f y) mid (outcome y) rest) :
    Settles (do
      Reader.skip
      let key ← Strings.read
      Reader.colon
      let x ← item
      f (key, x)) (memberText m ++ mid) ((rereadMember? m).bind outcome) rest := by
  obtain ⟨key, v⟩ := m
  have hkey := (spells_escape key.toList).takes (':' :: (itemText v ++ mid))
  rw [String.ofList_toList] at hkey
  have hcolon : Takes Reader.colon (':' :: (itemText v ++ mid)) () (itemText v ++ mid) :=
    (takes_peek blank_nil rfl _).bind (Reader.takes_skip _ _)
  rw [memberText_eq, rereadMember?, Option.bind_map]
  simp only [List.cons_append, List.append_assoc]
  refine (Reader.takes_skip _ _).settles_bind (hkey.settles_bind (hcolon.settles_bind ?_))
  exact (hitem mid hmid).bind fun x hx => h _ (Option.mem_map_of_mem _ hx)

theorem takes_nextMember {P : Json → List Char → Prop} {m : String × Json} {text : List Char}
    (hm : Named P m text) (rest : List Char) :
    Takes (Reader.nextMember true) (text ++ rest) true (text ++ rest) ∧
      Takes (Reader.nextMember false) (',' :: (text ++ rest)) true (text ++ rest) :=
  ⟨takes_nextMember_first blank_nil hm rest, takes_nextMember_more blank_nil blank_nil hm rest⟩

theorem members_rereads {members : List (String × Json)}
    (hitem : ∀ m ∈ members, ∀ rest, Stops rest →
      Settles item (itemText m.2 ++ rest) (reread? m.2) rest) :
    Rereads (Reader.members item) '\x7d' memberText rereadMember? members where
  stops _ := .inr (by simp)
  nonempty m _ := by
    rw [memberText_eq]
    exact List.cons_ne_nil _ _
  ends c clock first seen rest := (takes_nextMember_close first blank_nil rest).bind rfl
  begins m hm c clock seen mid rest outcome hmid h := by
    have hsettles := memberText_settles (f := fun m => item.members clock false (m :: seen)) hmid
      (hitem m hm) h
    exact (takes_nextMember (named_memberText m) mid).1.settles_bind hsettles
  further m hm c clock seen mid rest outcome hmid h := by
    have hsettles := memberText_settles (f := fun m => item.members clock false (m :: seen)) hmid
      (hitem m hm) h
    exact (takes_nextMember (named_memberText m) mid).2.settles_bind hsettles

theorem rereadMembers?_keys {members members' : List (String × Json)}
    (h : rereadList? rereadMember? members = some members') :
    members'.map Prod.fst = members.map Prod.fst := by
  induction members generalizing members' with
  | nil =>
    obtain rfl := Option.some.inj h
    rfl
  | cons m ms ih =>
    obtain ⟨m', hm, hrest⟩ := Option.bind_eq_some_iff.1 h
    obtain ⟨ms', hms, rfl⟩ := Option.map_eq_some_iff.1 hrest
    obtain ⟨v, -, rfl⟩ := Option.map_eq_some_iff.1 hm
    rw [List.map_cons, List.map_cons, ih hms]

theorem ordered_iff_keys {α : Type} {members : List (String × α)} :
    Members.Ordered members ↔ (members.map Prod.fst).Pairwise (· < ·) := List.pairwise_map.symm

theorem ordered_of_reread {members members' : List (String × Json)}
    (h : rereadList? rereadMember? members = some members') (hordered : Members.Ordered members) :
    Members.Ordered members' := by
  rw [ordered_iff_keys] at hordered ⊢
  rwa [rereadMembers?_keys h]

theorem valueWith_settles (inner : Option (Reader Json)) {v : Json} (hitems : ∀ items, v ≠ .array items)
    (hmembers : ∀ members, v ≠ .object members) (hrest : Stops rest) :
    Settles (valueWith inner) (itemText v ++ rest) (reread? v) rest := by
  have hplain : ∀ {text : List Char}, Plain v text →
      Settles (valueWith inner) (text ++ rest) (some v) rest :=
    fun h => h.takes inner blank_nil hrest
  cases v with
  | null => exact hplain .null
  | bool b =>
    cases b with
    | true => exact hplain .true
    | false => exact hplain .false
  | number x =>
    rw [itemText_number]
    exact number_settles inner x hrest
  | text s =>
    rw [itemText_text, Quoted.write, String.toList_ofList]
    exact hplain (.text (spells_escape s.toList))
  | array items => exact absurd rfl (hitems items)
  | object members => exact absurd rfl (hmembers members)

theorem itemText_cons_append (opening : Char) {body rest : List Char} (close : Char) :
    opening :: (body ++ [close]) ++ rest = opening :: (body ++ close :: rest) := by simp

/-- What the reader of values makes of the text of a value, whatever may follow it. -/
theorem value_settles {depth : ℕ} {v : Json} (h : v.Bounded depth) (hrest : Stops rest) :
    Settles (value depth) (itemText v ++ rest) (reread? v) rest := by
  induction depth generalizing v rest with
  | zero =>
    refine valueWith_settles none ?_ ?_ hrest
    · rintro items rfl
      exact h
    · rintro members rfl
      exact h
  | succ depth ih =>
    by_cases hplain : (∀ items, v ≠ .array items) ∧ ∀ members, v ≠ .object members
    · exact valueWith_settles _ hplain.1 hplain.2 hrest
    · obtain ⟨items, rfl⟩ | ⟨members, rfl⟩ :
          (∃ items, v = .array items) ∨ ∃ members, v = .object members := by
        simpa only [not_and_or, not_forall, not_not] using hplain
      · have hitems := (items_rereads (fun v hv => itemText_begins (h v hv))
          fun v hv rest hrest => ih (h v hv) hrest).settles_all rest
        rw [itemText_array, itemText_cons_append, reread?, rereadItems?_eq]
        exact (takes_peek blank_nil rfl _).settles_bind ((Reader.takes_skip _ _).settles_bind
          (Reader.settles_get_bind (hitems.map Json.array)))
      · obtain ⟨hordered, hvalues⟩ := h
        have hmembers :=
          (members_rereads fun m hm rest hrest => ih (hvalues m hm) hrest).settles_all rest
        have hobject : (rereadList? rereadMember? members).map Json.object =
            (rereadList? rereadMember? members).map fun ms => .object (Members.ofList ms) := by
          refine Option.map_congr fun ms hms => ?_
          have hms := ordered_of_reread hms hordered
          rw [Members.ofList_eq hms fun key => hms.find?_reverse.symm]
        rw [itemText_object hordered, itemText_cons_append, reread?, rereadMembers?_eq, hobject]
        exact (takes_peek blank_nil rfl _).settles_bind ((Reader.takes_skip _ _).settles_bind
          (Reader.settles_get_bind (hmembers.map fun ms => Json.object (Members.ofList ms))))

/-- The canonical text of a value is read as the value with its numbers read again. -/
theorem parse_canonical {v : Json} (h : v.Bounded maxDepth) :
    (parse (String.join (tokens v))).toOption = reread? v := by
  have hend : Stops [] := trivial
  have hsettles := value_settles h hend
  have htext : (String.join (tokens v)).toList = itemText v ++ [] := by
    rw [String.toList_join, List.append_nil]
    rfl
  have hwhole : Settles (do
      let x ← value maxDepth
      Reader.finish
      return x) (String.join (tokens v)).toList ((reread? v).bind some) [] := by
    rw [htext]
    refine hsettles.bind fun x _ => ?_
    exact (takes_finish blank_nil).bind (Reader.takes_pure x [])
  rw [Option.bind_fun_some] at hwhole
  unfold parse Reader.run
  dsimp only
  cases hv : reread? v with
  | some v' =>
    rw [hv] at hwhole
    unfold Settles Takes at hwhole
    dsimp only at hwhole
    rw [hwhole]
    rfl
  | none =>
    rw [hv] at hwhole
    obtain ⟨fault, hfault⟩ := hwhole
    rw [hfault]
    rfl

end Values

section Texts
variable {rest rest' : List Char}

theorem unstopped_append_inj {a b : List Char} (ha : ∀ c ∈ a, ∀ rest, ¬ Stops (c :: rest))
    (hb : ∀ c ∈ b, ∀ rest, ¬ Stops (c :: rest)) (hrest : Stops rest) (hrest' : Stops rest')
    (h : a ++ rest = b ++ rest') : a = b ∧ rest = rest' := by
  induction a generalizing b with
  | nil =>
    cases b with
    | nil => exact ⟨rfl, h⟩
    | cons c b =>
      rw [List.nil_append] at h
      exact absurd (h ▸ hrest) (hb c List.mem_cons_self _)
  | cons c a ih =>
    cases b with
    | nil =>
      rw [List.nil_append] at h
      exact absurd (h ▸ hrest') (ha c List.mem_cons_self _)
    | cons d b =>
      obtain ⟨hhead, htail⟩ := List.cons.inj h
      obtain ⟨hsame, hleft⟩ := ih (fun c hc => ha c (List.mem_cons_of_mem _ hc))
        (fun c hc => hb c (List.mem_cons_of_mem _ hc)) htail
      exact ⟨by rw [hhead, hsame], hleft⟩

section Lists
variable {α : Type} {text : α → List Char} {again : α → Option α} {close : Char} {xs xs' : List α}

theorem listText_aligned {P : α → Prop} (hclose : ∀ rest, Stops (close :: rest))
    (hx : ∀ x ∈ xs, ∀ x' ∈ again x, ∀ {rest rest' : List Char}, Stops rest → Stops rest' →
      text x ++ rest = text x' ++ rest' → P x ∧ rest = rest')
    (h : rereadList? again xs = some xs') (first : Bool)
    (htext : listText text first xs ++ close :: rest = listText text first xs' ++ close :: rest') :
    (∀ x ∈ xs, P x) ∧ rest = rest' := by
  induction xs generalizing xs' first with
  | nil =>
    obtain rfl := Option.some.inj h
    exact ⟨nofun, by simpa [listText] using htext⟩
  | cons x xs ih =>
    obtain ⟨x', hx', htail⟩ := Option.bind_eq_some_iff.1 h
    obtain ⟨ys, hys, rfl⟩ := Option.map_eq_some_iff.1 htail
    have hbegin : text x ++ (listText text false xs ++ close :: rest) =
        text x' ++ (listText text false ys ++ close :: rest') := by
      cases first <;> simpa [listText] using htext
    obtain ⟨hP, hmore⟩ := hx x List.mem_cons_self x' hx' (stops_listText hclose xs rest)
      (stops_listText hclose ys rest') hbegin
    obtain ⟨hPs, hrest⟩ := ih (fun y hy => hx y (List.mem_cons_of_mem x hy)) hys false hmore
    exact ⟨List.forall_mem_cons.2 ⟨hP, hPs⟩, hrest⟩

theorem listText_kept (h : ∀ x ∈ xs, ∃ x', again x = some x' ∧ text x' = text x) :
    ∃ xs', rereadList? again xs = some xs' ∧ ∀ first, listText text first xs' = listText text first xs := by
  induction xs with
  | nil => exact ⟨[], rfl, fun _ => rfl⟩
  | cons x xs ih =>
    obtain ⟨⟨x', hx, htext⟩, hxs⟩ := List.forall_mem_cons.1 h
    obtain ⟨xs', hxs', hsame⟩ := ih hxs
    refine ⟨x' :: xs', by simp [rereadList?, hx, hxs'], fun first => ?_⟩
    cases first <;> rw [listText, listText, htext, hsame]

end Lists

theorem mem_itemNumbers {x : Number} {items : List Json} :
    x ∈ itemNumbers items ↔ ∃ v ∈ items, x ∈ numbers v := by
  induction items with
  | nil => simp [itemNumbers]
  | cons v items ih => simp [itemNumbers, ih]

theorem mem_memberNumbers {x : Number} {members : List (String × Json)} :
    x ∈ memberNumbers members ↔ ∃ m ∈ members, x ∈ numbers m.2 := by
  induction members with
  | nil => simp [memberNumbers]
  | cons m members ih => simp [memberNumbers, ih]

/-- If a value and the value that its text is read as are written alike, every number is stable. -/
theorem stable_of_itemText {v v' : Json} (hv : v.Ordered) (h : reread? v = some v')
    (hrest : Stops rest) (hrest' : Stops rest') (htext : itemText v ++ rest = itemText v' ++ rest') :
    (∀ x ∈ numbers v, x.Stable) ∧ rest = rest' := by
  induction hv generalizing v' rest rest' with
  | null =>
    obtain rfl := Option.some.inj h
    exact ⟨nofun, List.append_cancel_left htext⟩
  | bool b =>
    obtain rfl := Option.some.inj h
    exact ⟨nofun, List.append_cancel_left htext⟩
  | text s =>
    obtain rfl := Option.some.inj h
    exact ⟨nofun, List.append_cancel_left htext⟩
  | number x =>
    obtain ⟨y, hy, rfl⟩ := Option.map_eq_some_iff.1 h
    rw [itemText_number, itemText_number] at htext
    obtain ⟨hsame, hleft⟩ := unstopped_append_inj (fun _ => Number.write_unstopped)
      (fun _ => Number.write_unstopped) hrest hrest' htext
    refine ⟨fun z hz => ?_, hleft⟩
    obtain rfl := List.mem_singleton.1 hz
    rw [Number.Stable, hy, Option.map_some, String.toList_injective hsame]
  | @array items _ ih =>
    rw [reread?, rereadItems?_eq] at h
    obtain ⟨items', hitems, rfl⟩ := Option.map_eq_some_iff.1 h
    rw [itemText_array, itemText_array, itemText_cons_append, itemText_cons_append] at htext
    obtain ⟨hstable, hleft⟩ := listText_aligned (P := fun v => ∀ x ∈ numbers v, x.Stable)
      (fun _ => .inr (by simp)) (fun v hv _ hread _ _ => ih v hv hread) hitems true (List.cons.inj htext).2
    refine ⟨fun x hx => ?_, hleft⟩
    obtain ⟨v, hv, hx⟩ := mem_itemNumbers.1 hx
    exact hstable v hv x hx
  | @object members hordered _ ih =>
    rw [reread?, rereadMembers?_eq] at h
    obtain ⟨members', hmembers, rfl⟩ := Option.map_eq_some_iff.1 h
    rw [itemText_object hordered, itemText_object (ordered_of_reread hmembers hordered),
      itemText_cons_append, itemText_cons_append] at htext
    have hmember : ∀ m ∈ members, ∀ m' ∈ rereadMember? m, ∀ {rest rest' : List Char}, Stops rest →
        Stops rest' → memberText m ++ rest = memberText m' ++ rest' →
          (∀ x ∈ numbers m.2, x.Stable) ∧ rest = rest' := by
      intro m hm m' hread rest rest' hrest hrest' hsame
      obtain ⟨v, hv, rfl⟩ := Option.map_eq_some_iff.1 hread
      rw [memberText_eq, memberText_eq] at hsame
      simp only [List.cons_append, List.append_assoc, List.cons.injEq, true_and,
        List.append_cancel_left_eq] at hsame
      exact ih m hm hv hrest hrest' hsame
    obtain ⟨hstable, hleft⟩ := listText_aligned (fun _ => .inr (by simp)) hmember hmembers true
      (List.cons.inj htext).2
    refine ⟨fun x hx => ?_, hleft⟩
    obtain ⟨m, hm, hx⟩ := mem_memberNumbers.1 hx
    exact hstable m hm x hx

theorem itemText_of_stable {v : Json} (hv : v.Ordered)
    (h : ∀ x ∈ numbers v, x.Stable) : ∃ v', reread? v = some v' ∧ itemText v' = itemText v := by
  induction hv with
  | null => exact ⟨_, rfl, rfl⟩
  | bool b => exact ⟨_, rfl, rfl⟩
  | text s => exact ⟨_, rfl, rfl⟩
  | number x =>
    obtain ⟨y, hy, hsame⟩ := Option.map_eq_some_iff.1 (h x (List.mem_singleton_self x))
    exact ⟨.number y, by rw [reread?, hy, Option.map_some], by rw [itemText_number, itemText_number, hsame]⟩
  | @array items _ ih =>
    obtain ⟨items', hitems, hsame⟩ := listText_kept fun v hv =>
      ih v hv fun x hx => h x (mem_itemNumbers.2 ⟨v, hv, hx⟩)
    exact ⟨.array items', by rw [reread?, rereadItems?_eq, hitems, Option.map_some],
      by rw [itemText_array, itemText_array, hsame]⟩
  | @object members hordered _ ih =>
    have hkept : ∀ m ∈ members, ∃ m', rereadMember? m = some m' ∧ memberText m' = memberText m := by
      intro m hm
      obtain ⟨v, hv, htext⟩ := ih m hm fun x hx => h x (mem_memberNumbers.2 ⟨m, hm, hx⟩)
      exact ⟨(m.1, v), by rw [rereadMember?, hv, Option.map_some],
        by rw [memberText_eq, memberText_eq, htext]⟩
    obtain ⟨members', hmembers, hsame⟩ := listText_kept hkept
    exact ⟨.object members', by rw [reread?, rereadMembers?_eq, hmembers, Option.map_some],
      by rw [itemText_object hordered, itemText_object (ordered_of_reread hmembers hordered), hsame]⟩

end Texts

/-- The text is accepted and made into the canonical one. -/
def Canonicalizes (text canonical : String) : Prop :=
  ∃ v st, (∀ fuel, canonicalize fuel text = .ok (stringify fuel v)) ∧
    Gives (fun fuel => stringify fuel v) Store.empty canonical st

theorem canonicalizes_iff {text canonical : String} :
    Canonicalizes text canonical ↔ ∃ v, parse text = .ok v ∧ String.join (tokens v) = canonical := by
  constructor
  · rintro ⟨v, st, hcanonicalize, hgives⟩
    unfold canonicalize at hcanonicalize
    cases hparse : parse text with
    | error e =>
      have hnever := hcanonicalize 0
      rw [hparse] at hnever
      cases hnever
    | ok v' =>
      have hsame : (fun fuel => stringify fuel v') = fun fuel => stringify fuel v := by
        funext fuel
        have hrun := hcanonicalize fuel
        rw [hparse] at hrun
        exact Except.ok.inj hrun
      obtain ⟨st', hst'⟩ := stringify_gives v'
      rw [hsame] at hst'
      exact ⟨v', rfl, (hst'.unique hgives).1⟩
  · rintro ⟨v, hparse, rfl⟩
    obtain ⟨st, hst⟩ := stringify_gives v
    refine ⟨v, st, fun fuel => ?_, hst⟩
    rw [canonicalize, hparse]
    rfl

theorem ok_of_toOption {α β : Type} {e : Except α β} {x : β} (h : e.toOption = some x) : e = .ok x := by
  cases e with
  | error _ => cases h
  | ok y => exact congrArg Except.ok (Option.some.inj h)

theorem toList_canonical (v : Json) : (String.join (tokens v)).toList = itemText v := String.toList_join

theorem canonical_stable_iff {v : Json} (h : v.Bounded maxDepth) :
    Canonicalizes (String.join (tokens v)) (String.join (tokens v)) ↔ ∀ x ∈ numbers v, x.Stable := by
  have hparse := parse_canonical h
  rw [canonicalizes_iff]
  constructor
  · rintro ⟨v', hv', hsame⟩
    rw [hv'] at hparse
    have htext := congrArg String.toList hsame
    rw [toList_canonical, toList_canonical] at htext
    have hend : Stops [] := trivial
    exact (stable_of_itemText h.ordered hparse.symm hend hend (by rw [htext])).1
  · intro hstable
    obtain ⟨v', hv', htext⟩ := itemText_of_stable h.ordered hstable
    rw [hv'] at hparse
    exact ⟨v', ok_of_toOption hparse,
      String.toList_injective (by rw [toList_canonical, toList_canonical, htext])⟩

theorem Bounded.inRange {depth : ℕ} {v : Json} (h : v.Bounded depth) : ∀ x ∈ numbers v, x.InRange := by
  induction depth generalizing v with
  | zero =>
    cases v with
    | number x => exact fun y hy => List.mem_singleton.1 hy ▸ h
    | array items => exact h.elim
    | object members => exact h.elim
    | _ => nofun
  | succ depth ih =>
    cases v with
    | number x => exact fun y hy => List.mem_singleton.1 hy ▸ h
    | array items =>
      intro x hx
      obtain ⟨v, hv, hx⟩ := mem_itemNumbers.1 hx
      exact ih (h v hv) x hx
    | object members =>
      intro x hx
      obtain ⟨m, hm, hx⟩ := mem_memberNumbers.1 hx
      exact ih (h.2 m hm) x hx
    | _ => nofun

/-- A canonical text is made into itself exactly if each number in it is read as a number with the same
text. Integers always are. -/
theorem canonicalize_again {text canonical : String} (h : Canonicalizes text canonical) :
    ∃ v, parse text = .ok v ∧
      (Canonicalizes canonical canonical ↔ ∀ x ∈ numbers v, x.Stable) ∧
      ∀ n : ℤ, .integer n ∈ numbers v → (Number.integer n).Stable := by
  obtain ⟨v, hparse, rfl⟩ := canonicalizes_iff.1 h
  have hbounded := parse_bounded hparse
  exact ⟨v, hparse, canonical_stable_iff hbounded,
    fun n hn => Number.integer_stable (hbounded.inRange _ hn)⟩

def realsText : String := "[ -0, 1.50, 18446744073709551616, -7 ]"

theorem reals_canonicalized_again :
    Canonicalizes realsText "[-0.0,1.5,1.8446744073709552e+19,-7]" ∧
      Canonicalizes "[-0.0,1.5,1.8446744073709552e+19,-7]" "[-0.0,1.5,1.8446744073709552e+19,-7]" := by
  have hread : (parse realsText).toOption.map (fun v => (String.join (tokens v), numbers v)) =
      some ("[-0.0,1.5,1.8446744073709552e+19,-7]", [.real ⟨true, ⟨0, -1074⟩⟩,
        .real ⟨false, ⟨6755399441055744, -52⟩⟩, .real ⟨false, ⟨4503599627370496, 12⟩⟩,
        .integer (-7)]) := by decide +kernel
  obtain ⟨v, hv, hparts⟩ := Option.map_eq_some_iff.1 hread
  obtain ⟨hcanonical, hnumbers⟩ := Prod.mk.inj hparts
  have hparse := ok_of_toOption hv
  have hfirst := canonicalizes_iff.2 ⟨v, hparse, hcanonical⟩
  obtain ⟨v', hv', hagain, -⟩ := canonicalize_again hfirst
  obtain rfl := Except.ok.inj (hv'.symm.trans hparse)
  refine ⟨hfirst, hagain.2 ?_⟩
  rw [hnumbers]
  decide +kernel

/-- The last digit of this real goes and comes back each time the text is made canonical. -/
theorem real_text_unstable :
    Canonicalizes "1.1e24" "1.0999999999999999e+24" ∧
      Canonicalizes "1.0999999999999999e+24" "1.1e+24" ∧
      Canonicalizes "1.1e+24" "1.0999999999999999e+24" := by
  refine ⟨canonicalizes_iff.2 ⟨.number (.real ⟨false, ⟨8195638656616210, 27⟩⟩), rfl, ?_⟩,
    canonicalizes_iff.2 ⟨.number (.real ⟨false, ⟨8195638656616211, 27⟩⟩), rfl, ?_⟩,
    canonicalizes_iff.2 ⟨.number (.real ⟨false, ⟨8195638656616210, 27⟩⟩), rfl, ?_⟩⟩
  all_goals decide +kernel

end MemoSequence.Json
