import MemoSequence.Proofs.Codec.Blocks
import MemoSequence.Proofs.Demand.Pipelines
import MemoSequence.Proofs.Prefixes
set_option autoImplicit false

namespace MemoSequence

section Taking
variable {ι : Type} [Basis ι] {k : Kind ι} {st st' : Store ι} {xs : List (El k)}

theorem Sequence.traverse_of_extract {fuel count : ℕ} {seen : Array (El k)} {s rest : Sequence k}
    (h : Sequence.extract fuel count seen s st = .ok ((xs, rest), st'))
    (hlt : xs.length < seen.size + count) :
    Gives (fun fuel => Sequence.traverse (fun seen x => return .yield (seen.push x)) fuel seen s) st
      xs.toArray st' := by
  induction count generalizing seen s st with
  | zero =>
    obtain ⟨hxs, -⟩ := Run.pure_eq_ok.1 h
    obtain ⟨rfl, -⟩ := Prod.mk.inj hxs
    exact absurd hlt (by simp)
  | succ count ih =>
    obtain ⟨answer, st₁, hnext, h⟩ := Run.bind_eq_ok.1 h
    have hgives : Gives (fun fuel => Sequence.next fuel s) st answer st₁ :=
      ⟨fuel, fun n hn => visit_extends hn s [] _ _ hnext⟩
    cases answer with
    | none =>
      obtain ⟨hxs, rfl⟩ := Run.pure_eq_ok.1 h
      obtain ⟨rfl, -⟩ := Prod.mk.inj hxs
      refine (hgives.bind (gives_of_eq ?_)).succ
      rw [Array.toArray_toList]
    | some p =>
      obtain ⟨x, tail⟩ := p
      have hrest := ih h (by rw [Array.size_push]; omega)
      refine (hgives.bind ?_).succ
      exact hrest

theorem Plan.Demands.firsts {p : Plan k} {count : ℕ} {l : List Note}
    (h : p.Demands count (xs.map .here) l) (hle : xs.length ≤ count) (hp : p.Closed)
    (hk : st.keeps = true) :
    ∃ st', Gives (p.firsts count) st xs st' ∧ st'.journal.toList = st.journal.toList ++ l := by
  have hdemands : (Plan.take p count).Demands (count + 1) (xs.map .here) l :=
    .take (by rwa [Nat.min_eq_right (Nat.le_succ count)])
  obtain ⟨R, hdraws⟩ := hdemands.draws hp
  obtain ⟨ys, rest, st', hgives, hshows, hjournal, -⟩ := Plan.obtains (p := .take p count) st hp hk hdraws
  have hsame : List.Forall₂ Eq ys xs := (List.forall₂_map_left_iff.1 hshows).flip
  rw [List.forall₂_eq_eq_eq] at hsame
  subst hsame
  obtain ⟨fuel, hextract⟩ := hgives.run
  have hlist := Sequence.traverse_of_extract hextract (by simp; omega)
  exact ⟨st', (gives_of_eq rfl).bind (hlist.bind (gives_of_eq rfl)), hjournal⟩

end Taking

section Bites
variable {step : DecodeStep} {Pending : List UInt8 → Prop}
  {Chunk : Except CodecError UInt32 → List UInt8 → Prop} {pending bytes : List UInt8}
  {e : Except CodecError UInt32}

def emitted (step : DecodeStep) (pending : List UInt8) (inputs : List (Option UInt8)) :
    List (Except CodecError UInt32) :=
  scanOutputs (fun x => step x.1 x.2) pending inputs

/-- With the last of these bytes the decoder puts out `e` and holds nothing, and before that it puts out
nothing. -/
inductive Completes (step : DecodeStep) : List UInt8 → List UInt8 → Except CodecError UInt32 → Prop
  | last {pending : List UInt8} {b : UInt8} {e : Except CodecError UInt32}
      (h : step pending (some b) = ([e], [])) : Completes step pending [b] e
  | more {pending bytes : List UInt8} {b : UInt8} {e : Except CodecError UInt32}
      (h : step pending (some b) = ([], pending ++ [b])) (hc : Completes step (pending ++ [b]) bytes e) :
      Completes step pending (b :: bytes) e

theorem Completes.onward (h : Completes step pending bytes e) (inputs : List (Option UInt8)) :
    emitted step pending (bytes.map some ++ inputs) = e :: emitted step [] inputs := by
  induction h with
  | last h =>
    simp only [emitted, List.map_cons, List.map_nil, List.singleton_append, scanOutputs, h]
  | more h _ ih =>
    simp only [emitted, List.map_cons, List.cons_append, scanOutputs, h, List.nil_append]
    exact ih

theorem Completes.ne_nil (h : Completes step pending bytes e) : bytes ≠ [] := by
  cases h with
  | last h => exact List.cons_ne_nil _ _
  | more h _ => exact List.cons_ne_nil _ _

theorem Completes.before (h : Completes step pending bytes e) :
    emitted step pending (bytes.dropLast.map some) = [] := by
  induction h with
  | last h => rfl
  | more h hc ih =>
    rw [List.dropLast_cons_of_ne_nil hc.ne_nil]
    simp only [emitted, List.map_cons, scanOutputs, h, List.nil_append]
    exact ih

theorem Cuts.completes (h : Cuts step Pending Chunk)
    (hshort : ∀ pending, Pending pending → pending.length ≤ 3) (hp : Pending pending) {bs : List UInt8}
    (hlen : 4 ≤ pending.length + bs.length) :
    ∃ bytes rest e, bs = bytes ++ rest ∧ pending.length + bytes.length ≤ 4 ∧
      Completes step pending bytes e ∧ Chunk e (pending ++ bytes) ∧ ¬ EndsEarly e := by
  have hthree := hshort pending hp
  induction bs generalizing pending with
  | nil => 
    rw [List.length_nil] at hlen
    omega
  | cons b bs ih =>
    obtain ⟨e, he, hgoing, hc⟩ | ⟨he, hp'⟩ := h.byte hp b
    · exact ⟨[b], bs, e, rfl, Nat.succ_le_succ hthree, .last he, hc, hgoing⟩
    · have hthree' := hshort _ hp'
      obtain ⟨bytes, rest, e, rfl, hfour, hcompletes, hc, hgoing⟩ :=
        ih hp' (by simp at hlen ⊢; omega) hthree'
      refine ⟨b :: bytes, rest, e, rfl, ?_, .more he hcompletes, ?_, hgoing⟩
      · simp at hfour ⊢
        omega
      · rwa [List.append_assoc, List.singleton_append] at hc

structure Bite (step : DecodeStep) (Chunk : Except CodecError UInt32 → List UInt8 → Prop)
    (e : Except CodecError UInt32) (bytes : List UInt8) : Prop where
  completes : Completes step [] bytes e
  chunk : Chunk e bytes
  going : ¬ EndsEarly e
  short : bytes.length ≤ 4

variable {out : List (Except CodecError UInt32)} {chunks : List (List UInt8)}

theorem Cuts.bites (h : Cuts step Pending Chunk)
    (hshort : ∀ pending, Pending pending → pending.length ≤ 3) (count : ℕ) {bs : List UInt8}
    (hlen : 4 * count ≤ bs.length) :
    ∃ out chunks rest, bs = chunks.flatten ++ rest ∧ out.length = count ∧
      List.Forall₂ (Bite step Chunk) out chunks := by
  induction count generalizing bs with
  | zero => exact ⟨[], [], bs, rfl, rfl, .nil⟩
  | succ count ih =>
    have hfirst : 4 ≤ ([] : List UInt8).length + bs.length := by
      rw [List.length_nil]
      omega
    obtain ⟨bytes, rest, e, rfl, hfour, hcompletes, hc, hgoing⟩ := h.completes hshort h.start hfirst
    have hrest : 4 * count ≤ rest.length := by
      simp at hlen hfour
      omega
    obtain ⟨out, chunks, rest, rfl, hout, hbites⟩ := ih hrest
    refine ⟨e :: out, bytes :: chunks, rest, ?_, congrArg Nat.succ hout, .cons ?_ hbites⟩
    · rw [List.flatten_cons, List.append_assoc]
    · exact ⟨hcompletes, hc, hgoing, by simpa using hfour⟩

theorem bites_length (h : List.Forall₂ (Bite step Chunk) out chunks) :
    chunks.flatten.length ≤ 4 * out.length := by
  induction h with
  | nil => exact le_rfl
  | cons hb _ ih =>
    have hshort := hb.short
    rw [List.flatten_cons, List.length_append, List.length_cons]
    omega

theorem bites_onward (h : List.Forall₂ (Bite step Chunk) out chunks) (inputs : List (Option UInt8)) :
    emitted step [] (chunks.flatten.map some ++ inputs) = out ++ emitted step [] inputs := by
  induction h with
  | nil => rfl
  | cons hb _ ih =>
    rw [List.flatten_cons, List.map_append, List.append_assoc, hb.completes.onward, ih]
    rfl

theorem bites_decodeFrom (h : List.Forall₂ (Bite step Chunk) out chunks) (more : List UInt8) :
    decodeFrom step [] (chunks.flatten ++ more) = out ++ decodeFrom step [] more := by
  rw [← scanOutputs_terminated, ← scanOutputs_terminated, List.map_append, List.append_assoc]
  exact bites_onward h _

theorem bites_going (h : List.Forall₂ (Bite step Chunk) out chunks) : ∀ e ∈ out, ¬ EndsEarly e := by
  induction h with
  | nil => exact fun _ he => absurd he List.not_mem_nil
  | cons hb _ ih => exact List.forall_mem_cons.2 ⟨hb.going, ih⟩

/-- Without the last byte an output is missing. -/
theorem bites_before (h : List.Forall₂ (Bite step Chunk) out chunks) (hne : out ≠ []) :
    (emitted step [] (chunks.flatten.dropLast.map some)).length < out.length := by
  induction h with
  | nil => exact absurd rfl hne
  | @cons e bytes out chunks hb hrest ih =>
    cases hrest with
    | nil =>
      rw [List.flatten_singleton, hb.completes.before]
      exact Nat.one_pos
    | @cons e' bytes' out chunks hb' hrest =>
      have hmore : (bytes' :: chunks).flatten ≠ [] := by
        rw [List.flatten_cons]
        exact List.append_ne_nil_of_left_ne_nil hb'.completes.ne_nil _
      rw [List.flatten_cons, List.dropLast_append_of_ne_nil hmore, List.map_append, hb.completes.onward]
      exact Nat.succ_lt_succ (ih (List.cons_ne_nil _ _))

/-- To obtain some outputs is to ask for the bytes that complete them. -/
theorem bites_demands {f : Fn ℕ UInt8} {m : ℕ} (h : List.Forall₂ (Bite step Chunk) out chunks)
    (hbytes : chunks.flatten = (List.range m).map f.apply) :
    Plan.Demands (k := .decoded)
      ((Plan.terminated (.given (.ofFn f) : Plan .byte)).stateScanned []
        (.silent fun (pending, input) => step pending input))
      out.length (out.map .here) ((List.range m).filterMap f.note) := by
  cases m with
  | zero =>
    cases h with
    | nil => exact .nothing _
    | @cons e bytes _ _ hb hrest =>
      rw [List.flatten_cons] at hbytes
      exact absurd (List.append_eq_nil_iff.1 hbytes).1 hb.completes.ne_nil
  | succ m =>
    have hne : out ≠ [] := by
      rintro rfl
      cases h
      rw [List.range_succ, List.map_append] at hbytes
      exact List.append_ne_nil_of_right_ne_nil _ (List.cons_ne_nil _ _) hbytes.symm
    -- The bytes before the last one are not enough, and with the last one they are.
    obtain ⟨xs, hxs⟩ : ∃ xs, xs = ((List.range m).map f.apply).map some := ⟨_, rfl⟩
    have hall : chunks.flatten.map some = xs ++ [some (f.apply m)] := by
      rw [hbytes, List.range_succ, List.map_append, List.map_append, hxs]
      rfl
    have hfront : chunks.flatten.dropLast.map some = xs := by
      rw [List.map_dropLast, hall, List.dropLast_concat]
    have hfew := bites_before h hne
    have henough := bites_onward h []
    rw [hfront] at hfew
    rw [List.append_nil, hall, show emitted step [] [] = [] from rfl, List.append_nil] at henough
    have hinput : (Plan.terminated (.given (.ofFn f) : Plan .byte)).Demands (xs.length + 1)
        ((xs ++ [some (f.apply m)]).map .here) ((List.range (m + 1)).filterMap f.note) := by
      have hterminated := Plan.Demands.terminated (.source (ι := Atom) (k := .byte) f (m + 1)) (by simp)
      rw [← hbytes, hall] at hterminated
      simpa [hxs] using hterminated
    have hdemands : Plan.Demands (k := .decoded)
        ((Plan.terminated (.given (.ofFn f) : Plan .byte)).stateScanned []
          (.silent fun (pending, input) => step pending input))
        out.length (((emitted step [] (xs ++ [some (f.apply m)])).take out.length).map .here)
        ((List.range (m + 1)).filterMap f.note) := by
      refine .stateScanned hinput hfew ?_
      exact (congrArg List.length henough).ge
    rwa [henough, List.take_length] at hdemands

end Bites

namespace Encoding

theorem pending_short (e : Encoding) {pending : List UInt8} (h : e.Pending pending) :
    pending.length ≤ 3 := by
  cases e with
  | utf8 =>
    obtain rfl | ⟨hlead, hn, -⟩ := h
    · exact Nat.zero_le 3
    · have hbounds := hlead.bounds
      rw [List.length_cons]
      omega
  | utf16 => cases h <;> simp

variable {f : Fn ℕ UInt8} {m : ℕ} {out : List (Except CodecError UInt32)} {chunks : List (List UInt8)}

theorem decode_demands (e : Encoding) (h : List.Forall₂ (Bite e.step e.Chunk) out chunks)
    (hbytes : chunks.flatten = (List.range m).map f.apply) :
    (e.decode (.given (.ofFn f))).Demands out.length (out.map .here) ((List.range m).filterMap f.note) := by
  cases e with
  | utf8 => exact bites_demands h hbytes
  | utf16 => exact bites_demands h hbytes

theorem terminated_closed (f : Fn ℕ UInt8) : (Plan.terminated (.given (.ofFn f) : Plan .byte)).Closed :=
  ⟨Node.closed_ofFn f, Node.closed_single none⟩

theorem decode_closed (e : Encoding) (f : Fn ℕ UInt8) : (e.decode (.given (.ofFn f))).Closed := by
  cases e with
  | utf8 => exact terminated_closed f
  | utf16 => exact terminated_closed f

/-- What decoding `f 0`, `f 1`, `f 2` and so on gives first, and what it takes of them for that. -/
structure Streams (e : Encoding) (f : Fn ℕ UInt8) (count : ℕ) (st : Store Atom)
    (out : List (Except CodecError UInt32)) (chunks : List (List UInt8)) (m : ℕ) (st' : Store Atom) :
    Prop where
  gives : Gives ((e.decode (.given (.ofFn f))).firsts count) st out st'
  length : out.length = count
  cut : List.Forall₂ e.Chunk out chunks
  bytes : chunks.flatten = (List.range m).map f.apply
  calls : st'.journal.toList = st.journal.toList ++ (List.range m).filterMap f.note
  few : m ≤ 4 * count
  going : ∀ x ∈ out, ¬ EndsEarly x
  prefixes : ∀ n, m ≤ n → ∃ decoded,
    (e.decode (.ofList ((List.range n).map f.apply))).Collects decoded ∧
      e.Decodes ((List.range n).map f.apply) decoded ∧ decoded.take count = out
  endless : ∀ n, ∃ st', Gives ((Plan.terminated (.given (.ofFn f) : Plan .byte)).firsts n) st
    (((List.range n).map f.apply).map some) st'

theorem take_range_map {α : Type} (g : ℕ → α) {m n : ℕ} (h : m ≤ n) :
    ((List.range n).map g).take m = (List.range m).map g := by
  rw [← List.map_take, List.take_range, Nat.min_eq_left h]

/-- From an endless input any number of elements is decoded, with the bytes they stand for and no others. -/
theorem decode_endless (e : Encoding) (f : Fn ℕ UInt8) (count : ℕ) (st : Store Atom)
    (hk : st.keeps = true) : ∃ out chunks m st', e.Streams f count st out chunks m st' := by
  obtain ⟨bs, hbs⟩ : ∃ bs, bs = (List.range (4 * count)).map f.apply := ⟨_, rfl⟩
  have hlen : 4 * count ≤ bs.length := by simp [hbs]
  obtain ⟨out, chunks, rest, hsplit, rfl, hbites⟩ :=
    e.cuts.bites (fun _ => e.pending_short) count hlen
  have hfew := bites_length hbites
  have hbytes : chunks.flatten = (List.range chunks.flatten.length).map f.apply := by
    rw [← take_range_map f.apply hfew, ← hbs, hsplit, List.take_left]
  obtain ⟨st', hgives, hcalls⟩ := (e.decode_demands hbites hbytes).firsts (by simp) (e.decode_closed f) hk
  refine ⟨out, chunks, chunks.flatten.length, st', hgives, rfl, ?_, hbytes, hcalls, hfew,
    bites_going hbites, ?_, ?_⟩
  · exact hbites.imp fun _ _ hb => hb.chunk
  · intro n hn
    have hcut : (List.range n).map f.apply =
        chunks.flatten ++ ((List.range n).map f.apply).drop chunks.flatten.length := by
      conv_lhs => rw [← List.take_append_drop chunks.flatten.length ((List.range n).map f.apply)]
      rw [take_range_map f.apply hn, ← hbytes]
    refine ⟨_, e.decode_collects _, e.decodes _, ?_⟩
    rw [hcut, bites_decodeFrom hbites, List.take_left]
  · intro n
    have hsource := Plan.Demands.terminated (.source (ι := Atom) (k := .byte) f n) (by simp)
    obtain ⟨st₁, hfirsts, -⟩ := hsource.firsts (by simp) (terminated_closed f) hk
    exact ⟨st₁, hfirsts⟩

def accents : Fn ℕ UInt8 := ⟨fun i => if i % 2 = 0 then 0xC3 else 0xA9, some⟩

theorem accents_decoded :
    (Store.empty : Store Atom).keeps = true ∧
      ∃ chunks m st', Encoding.utf8.Streams accents 2 Store.empty [.ok 0xE9, .ok 0xE9] chunks m st' := by
  obtain ⟨out, chunks, m, st', h⟩ := decode_endless .utf8 accents 2 Store.empty rfl
  obtain ⟨decoded, hcollects, -, htake⟩ := h.prefixes 8 h.few
  obtain rfl := hcollects.unique (Encoding.utf8.decode_collects _)
  obtain rfl : [.ok 0xE9, .ok 0xE9] = out := htake
  exact ⟨rfl, chunks, m, st', h⟩

end Encoding

end MemoSequence
