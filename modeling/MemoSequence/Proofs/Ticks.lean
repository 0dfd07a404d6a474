import Mathlib.Data.WSeq.Defs
import Mathlib.Data.WSeq.Relation
set_option autoImplicit false

namespace MemoSequence
open Stream' (Seq WSeq)
open Stream'.WSeq (think)

section Front
variable {α β : Type}

theorem think_injective : Function.Injective (think : WSeq α → WSeq α) :=
  Seq.cons_injective2.right none

def front : Option (α × WSeq α) → WSeq α
  | none => .nil
  | some (x, rest) => .cons x rest

theorem front_ne_think (r : Option (α × WSeq α)) (d : WSeq α) : front r ≠ think d := by
  intro h
  cases r with
  | none => exact Seq.cons_ne_nil h.symm
  | some p => exact Option.some_ne_none _ (Seq.cons_injective2 h).1

theorem front_injective : Function.Injective (front : Option (α × WSeq α) → WSeq α) := by
  intro r r' h
  cases r with
  | none =>
    cases r' with
    | none => rfl
    | some p => exact absurd h.symm Seq.cons_ne_nil
  | some p =>
    cases r' with
    | none => exact absurd h Seq.cons_ne_nil
    | some q =>
      obtain ⟨hx, hd⟩ := Seq.cons_injective2 h
      exact congrArg some (Prod.ext (Option.some.inj hx) hd)

theorem ticks_front_unique {m n : ℕ} {r r' : Option (α × WSeq α)}
    (h : think^[m] (front r) = think^[n] (front r')) : m = n ∧ r = r' := by
  induction m generalizing n with
  | zero =>
    cases n with
    | zero => exact ⟨rfl, front_injective h⟩
    | succ n =>
      rw [Function.iterate_succ_apply'] at h
      exact absurd h (front_ne_think _ _)
  | succ m ih =>
    rw [Function.iterate_succ_apply'] at h
    cases n with
    | zero => exact absurd h.symm (front_ne_think _ _)
    | succ n =>
      rw [Function.iterate_succ_apply'] at h
      obtain ⟨rfl, hr⟩ := ih (think_injective h)
      exact ⟨rfl, hr⟩

/-- A function that passes ticks on. -/
def Strict (op : WSeq α → WSeq β) : Prop := Function.Semiconj op think think

theorem Strict.ticks {op : WSeq α → WSeq β} (h : Strict op) (n : ℕ) (d : WSeq α) :
    op (think^[n] d) = think^[n] (op d) := h.iterate_right n d

theorem Strict.front_of {op : WSeq α → WSeq β} (h : Strict op) {n : ℕ} {d : WSeq α}
    {r : Option (β × WSeq β)} (hd : op d = think^[n] (front r)) :
    ∃ m r', m ≤ n ∧ d = think^[m] (front r') := by
  induction n generalizing d with
  | zero =>
    induction d using WSeq.recOn with
    | nil => exact ⟨0, none, le_rfl, rfl⟩
    | cons x d => exact ⟨0, some (x, d), le_rfl, rfl⟩
    | think d => exact absurd (hd.symm.trans (h d)) (front_ne_think _ _)
  | succ n ih =>
    induction d using WSeq.recOn with
    | nil => exact ⟨0, none, Nat.zero_le _, rfl⟩
    | cons x d => exact ⟨0, some (x, d), Nat.zero_le _, rfl⟩
    | think d =>
      rw [Function.iterate_succ_apply', h d] at hd
      obtain ⟨m, r', hm, rfl⟩ := ih (think_injective hd)
      exact ⟨m + 1, r', Nat.succ_le_succ hm, (Function.iterate_succ_apply' _ _ _).symm⟩

theorem strict_append (e : WSeq α) : Strict (·.append e) := fun d => WSeq.think_append d e

theorem strict_map (g : α → β) : Strict (WSeq.map g) := WSeq.map_think g

theorem strict_drop (n : ℕ) : Strict fun d : WSeq α => d.drop n := fun d => WSeq.dropn_think d n

end Front

section Unfolded
variable {α σ : Type} {f : σ → Option (Option α × σ)} {s u : σ}

def unfolded (f : σ → Option (Option α × σ)) (s : σ) : WSeq α := Seq.corec f s

theorem unfolded_nil (h : f s = none) : unfolded f s = .nil :=
  Seq.destruct_eq_none (by rw [unfolded, Seq.corec_eq, h]; rfl)

theorem unfolded_think (h : f s = some (none, u)) : unfolded f s = think (unfolded f u) :=
  Seq.destruct_eq_cons (by rw [unfolded, Seq.corec_eq, h]; rfl)

theorem unfolded_cons {x : α} (h : f s = some (some x, u)) :
    unfolded f s = .cons x (unfolded f u) :=
  Seq.destruct_eq_cons (by rw [unfolded, Seq.corec_eq, h]; rfl)

end Unfolded

end MemoSequence
