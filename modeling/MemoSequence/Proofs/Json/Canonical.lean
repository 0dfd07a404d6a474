import MemoSequence.Proofs.Json.Presented
import MemoSequence.Proofs.Json.Rendering
set_option autoImplicit false

namespace MemoSequence.Json
open Reader (Takes)

/-- Integers of 64 bits, members in the order of their keys, and at most `depth` containers open at a
time. -/
def Fits : (depth : ℕ) → Json → Prop
  | _, .number (.integer n) => -2 ^ 63 ≤ n ∧ n < 2 ^ 64
  | _, .number (.real _) => False
  | 0, .array _ => False
  | 0, .object _ => False
  | depth + 1, .array items => ∀ item ∈ items, Fits depth item
  | depth + 1, .object members =>
    Members.Ordered members ∧ ∀ member ∈ members, Fits depth member.2
  | _, _ => True

section Tokens
variable {α : Type} {P : α → List Char → Prop} {xs : List α} {parts : List (List String)}

def characters (texts : List String) : List Char := texts.flatMap String.toList

theorem characters_append (a b : List String) :
    characters (a ++ b) = characters a ++ characters b := List.flatMap_append

theorem following_commas (h : List.Forall₂ (fun x part => P x (characters part)) xs parts) :
    Following P xs (characters (parts.map ([","] ++ ·)).flatten) := by
  induction h with
  | nil => exact .nil blank_nil
  | cons hx _ ih =>
    rw [List.map_cons, List.flatten_cons, characters_append, characters_append, List.append_assoc]
    exact .cons blank_nil blank_nil hx ih

theorem listed_intercalate (h : List.Forall₂ (fun x part => P x (characters part)) xs parts) :
    Listed P xs (characters ([","].intercalate parts)) := by
  rw [← flatten_afterFirst]
  cases h with
  | nil => exact .nil blank_nil
  | cons hx hrest =>
    rw [afterFirst, List.flatten_cons, characters_append]
    exact .cons blank_nil hx (following_commas hrest)

theorem itemTokens_eq (items : List Json) : itemTokens items = items.map tokens := by
  induction items with
  | nil => rfl
  | cons item items ih => rw [itemTokens, ih, List.map_cons]

theorem memberTokens_eq (members : List (String × Json)) :
    memberTokens members =
      members.map fun m => (m.1, Quoted.write m.1 :: ":" :: tokens m.2) := by
  induction members with
  | nil => rfl
  | cons m members ih => rw [memberTokens, ih, List.map_cons]

theorem inKeyOrder_memberTokens {members : List (String × Json)} (h : Members.Ordered members) :
    Members.inKeyOrder (memberTokens members) = memberTokens members := by
  have hordered : Members.Ordered (memberTokens members) := by
    rw [memberTokens_eq]
    exact List.pairwise_map.2 h
  rw [← Members.sort_eq_inKeyOrder]
  exact List.mergeSort_of_pairwise (hordered.imp fun hlt => decide_eq_true hlt.le)

theorem named_tokens {Inner : Json → List Char → Prop} {m : String × Json}
    (h : Inner m.2 (characters (tokens m.2))) :
    Named Inner m (characters (Quoted.write m.1 :: ":" :: tokens m.2)) := by
  have hname : Named Inner m ('"' :: (m.1.toList.flatMap Quoted.escape ++ '"' :: ([] ++ ':' ::
      ([] ++ characters (tokens m.2))))) :=
    .member (spells_escape m.1.toList) blank_nil blank_nil h
  have htext : characters (Quoted.write m.1 :: ":" :: tokens m.2) =
      (Quoted.write m.1).toList ++ (":".toList ++ characters (tokens m.2)) := rfl
  rw [htext, Quoted.write, String.toList_ofList, List.append_assoc, List.cons_append]
  exact hname

theorem characters_singleton (text : String) : characters [text] = text.toList :=
  List.flatMap_singleton _ _

theorem plain_or_container {depth : ℕ} {v : Json} (h : v.Fits depth) :
    Plain v (characters (tokens v)) ∨ (∃ items, v = .array items) ∨ ∃ members, v = .object members := by
  cases v with
  | null => exact .inl .null
  | bool value =>
    cases value with
    | true => exact .inl .true
    | false => exact .inl .false
  | number value =>
    cases value with
    | real _ => cases depth <;> exact h.elim
    | integer n =>
      obtain ⟨hlow, hhigh⟩ : -2 ^ 63 ≤ n ∧ n < 2 ^ 64 := by cases depth <;> exact h
      have hplain := Plain.integer hlow hhigh
      rw [toString_int] at hplain
      rw [tokens, characters_singleton, primitive, Number.write, String.toList_ofList]
      · exact .inl hplain
      · nofun
      · nofun
  | text s =>
    have hplain := Plain.text (spells_escape s.toList)
    rw [tokens, characters_singleton, primitive, Quoted.write, String.toList_ofList]
    · exact .inl hplain
    · nofun
    · nofun
  | array items => exact .inr (.inl ⟨items, rfl⟩)
  | object members => exact .inr (.inr ⟨members, rfl⟩)

theorem characters_wrapped (opening closing : Char) (texts : List String) :
    characters (String.singleton opening :: (texts ++ [String.singleton closing])) =
      opening :: (characters texts ++ [closing]) := by
  simp [characters]

end Tokens

theorem presented_tokens {depth : ℕ} {v : Json} (h : v.Fits depth) :
    Presented depth v (characters (tokens v)) := by
  induction depth generalizing v with
  | zero =>
    obtain hplain | ⟨items, rfl⟩ | ⟨members, rfl⟩ := plain_or_container h
    · exact hplain
    · exact h.elim
    · exact h.elim
  | succ depth ih =>
    obtain hplain | ⟨items, rfl⟩ | ⟨members, rfl⟩ := plain_or_container h
    · exact .plain hplain
    · have hitems : List.Forall₂ (fun item part => Presented depth item (characters part)) items
          (items.map tokens) :=
        List.forall₂_map_right_iff.2 (List.forall₂_same.2 fun item hitem => ih (h item hitem))
      rw [tokens, itemTokens_eq]
      exact characters_wrapped '[' ']' _ ▸ .array (listed_intercalate hitems)
    · obtain ⟨hordered, hvalues⟩ := h
      have hmembers : List.Forall₂ (fun m part => Named (Presented depth) m (characters part))
          members (members.map fun m => Quoted.write m.1 :: ":" :: tokens m.2) :=
        List.forall₂_map_right_iff.2
          (List.forall₂_same.2 fun m hm => named_tokens (ih (hvalues m hm)))
      rw [tokens, inKeyOrder_memberTokens hordered, memberTokens_eq, List.map_map]
      exact characters_wrapped '\x7b' '\x7d' _ ▸ .object (listed_intercalate hmembers) hordered
        fun key => hordered.find?_reverse.symm

/-- The whole text presents the value, with blanks around it. -/
def Presents (text : String) (v : Json) : Prop :=
  ∃ blanks body blanks', text.toList = blanks ++ (body ++ blanks') ∧ Blank blanks ∧
    Presented maxDepth v body ∧ Blank blanks'

theorem takes_finish {blanks : List Char} (hb : Blank blanks) : Takes Reader.finish blanks () [] := by
  have hdrop : (blanks ++ []).dropWhile Reader.isBlank = [] := List.dropWhile_append_of_pos hb
  rw [List.append_nil] at hdrop
  have hskip : Takes Reader.skipBlanks blanks () [] :=
    congrArg (fun rest => Except.ok ((), rest)) hdrop
  have hpeek : Takes Reader.peek? blanks none [] := hskip.bind rfl
  exact hpeek.bind rfl

theorem parse_of_presents {text : String} {v : Json} (h : Presents text v) : parse text = .ok v := by
  obtain ⟨blanks, body, blanks', htext, hb, hbody, hb'⟩ := h
  have hstops : Stops (blanks' ++ []) := stops_blank hb' trivial
  rw [List.append_nil] at hstops
  have hvalue := (presented_reads maxDepth).takes hbody hb hstops
  rw [← htext] at hvalue
  have hwhole : Takes (do
      let x ← value maxDepth
      Reader.finish
      return x) text.toList v [] :=
    hvalue.bind ((takes_finish hb').bind (Reader.takes_pure v []))
  unfold Takes at hwhole
  simp only [parse, Reader.run, hwhole]

theorem presents_text {v : Json} (h : v.Fits maxDepth) : Presents (String.join (tokens v)) v := by
  have htext : (String.join (tokens v)).toList = [] ++ (characters (tokens v) ++ []) := by
    rw [String.toList_join, List.append_nil, List.nil_append, characters]
  exact ⟨[], _, [], htext, blank_nil, presented_tokens h, blank_nil⟩

/-- Whatever text presents a value, it is made into the one text that the value is written with. This text
is read back as the value, and no other value is written with it. -/
theorem canonicalize_presented {v : Json} (h : v.Fits maxDepth) :
    ∃ canonical st, Gives (fun fuel => stringify fuel v) Store.empty canonical st ∧
      (∀ text, Presents text v → ∀ fuel, canonicalize fuel text = .ok (stringify fuel v)) ∧
      parse canonical = .ok v ∧
      ∀ v' : Json, v'.Fits maxDepth →
        (∃ st', Gives (fun fuel => stringify fuel v') Store.empty canonical st') → v' = v := by
  obtain ⟨st, hst⟩ := stringify_gives v
  refine ⟨_, st, hst, fun text htext fuel => ?_, parse_of_presents (presents_text h), ?_⟩
  · rw [canonicalize, parse_of_presents htext]
    rfl
  · rintro v' h' ⟨st', hst'⟩
    obtain ⟨st₁, hst₁⟩ := stringify_gives v'
    have htext := (hst₁.unique hst').1
    have hparsed := parse_of_presents (presents_text h')
    rw [htext, parse_of_presents (presents_text h)] at hparsed
    exact (Except.ok.inj hparsed).symm

def greeting : Json := .object [("n", .number (.integer (-7))), ("é", .text "😀")]

def greetingText : String := "\x7b \"\\u00E9\":\"\\ud83D\\uDe00\" ,\"n\": -7\x7d\n"

theorem greeting_fits : greeting.Fits maxDepth := by
  have hkeys : ("n" : String) < "é" := by decide
  refine ⟨by simpa [Members.Ordered] using hkeys, fun member hmember => ?_⟩
  simp only [List.mem_cons, List.not_mem_nil, or_false] at hmember
  obtain rfl | rfl := hmember
  · exact ⟨by decide, by decide⟩
  · trivial

theorem greeting_presented : Presents greetingText greeting := by
  have hspace : Blank [' '] := by decide
  have hspelled : Spells "é".toList ['\\', 'u', '0', '0', 'E', '9'] := by
    have hchars : "é".toList = ['é'] := by decide
    rw [hchars]
    exact .cons (.unit ⟨'0', '0', 'E', '9', rfl, by decide⟩) .nil
  have htext : Spells "😀".toList ['\\', 'u', 'd', '8', '3', 'D', '\\', 'u', 'D', 'e', '0', '0'] := by
    have hchars : "😀".toList = ['😀'] := by decide
    rw [hchars]
    exact .cons (.pair (by decide : _ = 0x10000 + 0x3D * 0x400 + 0x200) (by decide)
      ⟨'d', '8', '3', 'D', rfl, by decide⟩ ⟨'D', 'e', '0', '0', rfl, by decide⟩) .nil
  have hnumber : Presented 126 (.number (.integer (-7))) ['-', '7'] :=
    Layered.plain (.integer (by decide) (by decide))
  have haccented : Named (Presented 126) ("é", .text "😀") ('"' :: (['\\', 'u', '0', '0', 'E', '9'] ++
      '"' :: ([] ++ ':' :: ([] ++ ('"' :: (['\\', 'u', 'd', '8', '3', 'D', '\\', 'u', 'D', 'e',
        '0', '0'] ++ ['"'])))))) :=
    .member hspelled blank_nil blank_nil (Layered.plain (.text htext))
  have hplain : Named (Presented 126) ("n", .number (.integer (-7)))
      ('"' :: (['n'] ++ '"' :: ([] ++ ':' :: ([' '] ++ ['-', '7'])))) :=
    .member (spells_escape "n".toList) blank_nil hspace hnumber
  have hlast : ∀ key, Members.find? key [("n", Json.number (.integer (-7))), ("é", .text "😀")] =
      Members.find? key
        [("é", Json.text "😀"), ("n", .number (.integer (-7)))].reverse := fun _ => rfl
  have hbody : Presented maxDepth greeting _ :=
    Layered.object (.cons hspace haccented (.cons hspace blank_nil hplain (.nil blank_nil)))
      greeting_fits.1 hlast
  exact ⟨[], _, ['\n'], by decide, blank_nil, hbody, by decide⟩

theorem greeting_canonicalized :
    greeting.Fits maxDepth ∧ Presents greetingText greeting ∧
      ∃ canonical st, Gives (fun fuel => stringify fuel greeting) Store.empty canonical st ∧
        (∀ fuel, canonicalize fuel greetingText = .ok (stringify fuel greeting)) ∧
        parse canonical = .ok greeting := by
  obtain ⟨canonical, st, hgives, hcanonicalize, hparse, -⟩ := canonicalize_presented greeting_fits
  exact ⟨greeting_fits, greeting_presented, canonical, st, hgives,
    hcanonicalize greetingText greeting_presented, hparse⟩

end MemoSequence.Json
