import Mathlib.Data.Char
import Mathlib.Data.List.Forall2
import Mathlib.Data.String.Basic
import MemoSequence.Members
set_option autoImplicit false

namespace MemoSequence

section Bytes

theorem utf8EncodeChar_lt {c d : Char} (h : c < d) (rest rest' : List UInt8) :
    String.utf8EncodeChar c ++ rest < String.utf8EncodeChar d ++ rest' := by
  have hlt : c.val.toNat < d.val.toNat := h
  have hd : d.val.toNat < 0x110000 := d.valid.elim (fun h => by omega) And.right
  clear h
  simp only [String.utf8EncodeChar]
  generalize c.val.toNat = m at *
  generalize d.val.toNat = n at *
  split_ifs <;>
    simp (disch := omega) only [List.cons_append, List.nil_append, List.cons_lt_cons_iff,
      UInt8.lt_iff_toNat_lt, ← UInt8.toNat_inj, UInt8.toNat_ofNat', Nat.mod_eq_of_lt] <;>
    omega

def keyBytes (key : String) : List UInt8 := key.toUTF8.data.toList

theorem keyBytes_eq (key : String) : keyBytes key = key.toList.flatMap String.utf8EncodeChar := by
  have hencoded : key.toUTF8 = key.toList.utf8Encode := by
    conv_lhs => rw [← String.ofList_toList (s := key)]
    exact String.toByteArray_ofList
  rw [keyBytes, hencoded, List.utf8Encode]
  simp

theorem flatMap_utf8EncodeChar_lt {cs ds : List Char} (h : cs < ds) :
    cs.flatMap String.utf8EncodeChar < ds.flatMap String.utf8EncodeChar := by
  induction h with
  | @nil d ds =>
    obtain ⟨b, bytes, hd⟩ := List.exists_cons_of_ne_nil (String.utf8EncodeChar_ne_nil (c := d))
    rw [List.flatMap_cons, hd]
    exact .nil
  | cons _ ih => exact List.append_left_lt ih
  | rel hlt => exact utf8EncodeChar_lt hlt _ _

theorem keyBytes_lt {k k' : String} (h : k < k') : keyBytes k < keyBytes k' := by
  rw [keyBytes_eq, keyBytes_eq]
  exact flatMap_utf8EncodeChar_lt (String.lt_iff_toList_lt.1 h)

theorem keyBytes_le_iff {k k' : String} : keyBytes k ≤ keyBytes k' ↔ k ≤ k' := by
  constructor
  · intro hle
    by_contra h
    exact hle (keyBytes_lt (not_le.1 h))
  · intro hle
    obtain hlt | rfl := hle.lt_or_eq
    · exact List.le_of_lt (keyBytes_lt hlt)
    · exact List.le_refl _

end Bytes

section Sorting
variable {α β : Type*}

theorem forall₂_mergeSort {R : α → β → Prop} {r : α → α → Bool} {s : β → β → Bool} {as : List α}
    {bs : List β} (h : List.Forall₂ R as bs)
    (hle : ∀ {a a' b b'}, R a b → R a' b' → r a a' = s b b') :
    List.Forall₂ R (as.mergeSort r) (bs.mergeSort s) := by
  obtain ⟨hlength, hzip⟩ := List.forall₂_iff_zip.1 h
  obtain ⟨pairs, rfl, rfl, hpairs⟩ :
      ∃ pairs : List (α × β), pairs.map Prod.fst = as ∧ pairs.map Prod.snd = bs ∧
        ∀ p ∈ pairs, R p.1 p.2 :=
    ⟨as.zip bs, List.map_fst_zip hlength.le, List.map_snd_zip hlength.ge, fun p hp => hzip hp⟩
  have hleft := List.map_mergeSort (l := pairs) (f := Prod.fst) (r := fun p q => r p.1 q.1) (s := r)
    fun _ _ _ _ => rfl
  have hright := List.map_mergeSort (l := pairs) (f := Prod.snd) (r := fun p q => r p.1 q.1) (s := s)
    fun p hp q hq => hle (hpairs p hp) (hpairs q hq)
  rw [← hleft, ← hright]
  refine List.forall₂_map_left_iff.2 (List.forall₂_map_right_iff.2 (List.forall₂_same.2 ?_))
  exact fun p hp => hpairs p (List.mem_mergeSort.1 hp)

end Sorting

namespace Members
variable {α : Type*}

/-- The members in the order of the UTF-8 bytes of their keys. -/
def inKeyOrder (members : List (String × α)) : List (String × α) :=
  members.mergeSort fun a b => keyBytes a.1 ≤ keyBytes b.1

theorem sort_eq_inKeyOrder (members : List (String × α)) : sort members = inKeyOrder members := by
  have hle : (fun a b : String × α => decide (a.1 ≤ b.1)) =
      fun a b => decide (keyBytes a.1 ≤ keyBytes b.1) := by
    funext a b
    exact decide_eq_decide.2 keyBytes_le_iff.symm
  rw [sort, inKeyOrder, hle]

theorem keyLe_trans (a b c : String × α) (hab : decide (a.1 ≤ b.1) = true)
    (hbc : decide (b.1 ≤ c.1) = true) : decide (a.1 ≤ c.1) = true :=
  decide_eq_true ((of_decide_eq_true hab).trans (of_decide_eq_true hbc))

theorem keyLe_total (a b : String × α) : (decide (a.1 ≤ b.1) || decide (b.1 ≤ a.1)) = true := by
  simpa using le_total a.1 b.1

theorem sort_perm (members : List (String × α)) : (sort members).Perm members :=
  List.mergeSort_perm members _

theorem sort_pairwise_le (members : List (String × α)) :
    (sort members).Pairwise fun a b => a.1 ≤ b.1 :=
  (List.pairwise_mergeSort keyLe_trans keyLe_total members).imp fun hab => of_decide_eq_true hab

end Members

end MemoSequence
