import MemoSequence.Proofs.Codec.RoundTrip
import MemoSequence.Proofs.Recipes
set_option autoImplicit false

namespace MemoSequence

section Cutting
variable {step : DecodeStep} {Pending : List UInt8 → Prop}
  {Chunk : Except CodecError UInt32 → List UInt8 → Prop} {pending : List UInt8}

/-- From its start the decoder takes these bytes without an output, and holds all of them. -/
def Held (step : DecodeStep) (pending : List UInt8) : Prop :=
  ∀ rest, decodeFrom step [] (pending ++ rest) = decodeFrom step pending rest

theorem held_nil : Held step [] := fun _ => rfl

theorem Held.push {b : UInt8} (h : Held step pending)
    (hb : step pending (some b) = ([], pending ++ [b])) : Held step (pending ++ [b]) := by
  intro rest
  rw [List.append_assoc, List.singleton_append, h, decodeFrom, hb, List.nil_append]

def early (pending : List UInt8) : List (Except CodecError UInt32) :=
  if pending.isEmpty then [] else [.error (.unexpectedEnd pending)]

theorem Cuts.decodeFrom_held (h : Cuts step Pending Chunk) (hheld : Held step pending) :
    decodeFrom step [] pending = early pending := by
  have hend : decodeFrom step pending [] = (step pending none).1 := rfl
  rw [← List.append_nil pending, hheld, List.append_nil, hend, h.mark, early]
  split_ifs <;> rfl

/-- Whatever follows a block, its outputs are followed by those of the bytes it leaves and what follows. -/
theorem Cuts.cut (h : Cuts step Pending Chunk) (hp : Pending pending) (hheld : Held step pending)
    (a : List UInt8) :
    ∃ front left, (∀ e ∈ front, ¬ EndsEarly e) ∧ Held step left ∧
      ∀ b, decodeFrom step pending (a ++ b) = front ++ decodeFrom step [] (left ++ b) := by
  induction a generalizing pending with
  | nil => exact ⟨[], pending, by simp, hheld, fun b => (hheld b).symm⟩
  | cons x a ih =>
    obtain ⟨e, he, hgoing, -⟩ | ⟨he, hp'⟩ := h.byte hp x
    · obtain ⟨front, left, hfront, hleft, hcut⟩ := ih h.start held_nil
      refine ⟨e :: front, left, List.forall_mem_cons.2 ⟨hgoing, hfront⟩, hleft, fun b => ?_⟩
      rw [List.cons_append, decodeFrom, he, hcut]
      rfl
    · obtain ⟨front, left, hfront, hleft, hcut⟩ := ih hp' (hheld.push he)
      refine ⟨front, left, hfront, hleft, fun b => ?_⟩
      rw [List.cons_append, decodeFrom, he, hcut]
      rfl

end Cutting

section Carrying
variable {step : DecodeStep} {Pending : List UInt8 → Prop}
  {Chunk : Except CodecError UInt32 → List UInt8 → Prop}

def carry (decoded : List (Except CodecError UInt32)) :
    List (Except CodecError UInt32) × List UInt8 :=
  match decoded.getLast? with
  | some (.error (.unexpectedEnd bytes)) => (decoded.dropLast, bytes)
  | _ => (decoded, [])

/-- Blocks decoded one after the other. What an early end of a block carries goes before the next one. -/
def inBlocks (decode : List UInt8 → List (Except CodecError UInt32)) (carried : List UInt8) :
    List (List UInt8) → List (Except CodecError UInt32)
  | [] => decode carried
  | block :: blocks =>
    (carry (decode (carried ++ block))).1 ++
      inBlocks decode (carry (decode (carried ++ block))).2 blocks

theorem carry_early (bytes : List UInt8) (front : List (Except CodecError UInt32)) :
    carry (front ++ [.error (.unexpectedEnd bytes)]) = (front, bytes) := by
  simp [carry]

theorem carry_of_not_early {decoded : List (Except CodecError UInt32)}
    (h : ∀ e ∈ decoded, ¬ EndsEarly e) : carry decoded = (decoded, []) := by
  unfold carry
  split
  · next bytes hlast => exact absurd ⟨bytes, rfl⟩ (h _ (List.mem_of_getLast? hlast))
  · rfl

theorem carry_of_not_ending {decoded : List (Except CodecError UInt32)}
    (h : ∀ front p, decoded ≠ front ++ [.error (.unexpectedEnd p)]) : carry decoded = (decoded, []) := by
  unfold carry
  split
  · next bytes hlast =>
    obtain ⟨front, hfront⟩ := List.getLast?_eq_some_iff.1 hlast
    exact absurd hfront (h front bytes)
  · rfl

theorem Cuts.decodeFrom_append (h : Cuts step Pending Chunk) (a b : List UInt8) :
    decodeFrom step [] (a ++ b) =
      (carry (decodeFrom step [] a)).1 ++ decodeFrom step [] ((carry (decodeFrom step [] a)).2 ++ b) := by
  obtain ⟨front, left, hfront, hleft, hcut⟩ := h.cut h.start held_nil a
  have hfirst : decodeFrom step [] a = front ++ early left := by
    have hnil := hcut []
    rwa [List.append_nil, List.append_nil, h.decodeFrom_held hleft] at hnil
  have hcarry : carry (decodeFrom step [] a) = (front, left) := by
    rw [hfirst, early]
    cases left with
    | nil => rw [List.isEmpty_nil, if_pos rfl, List.append_nil, carry_of_not_early hfront]
    | cons x left => exact carry_early _ _
  rw [hcut, hcarry]

theorem inBlocks_flatten {decode : List UInt8 → List (Except CodecError UInt32)}
    (h : ∀ a b, decode (a ++ b) = (carry (decode a)).1 ++ decode ((carry (decode a)).2 ++ b))
    (carried : List UInt8) (blocks : List (List UInt8)) :
    inBlocks decode carried blocks = decode (carried ++ blocks.flatten) := by
  induction blocks generalizing carried with
  | nil => rw [inBlocks, List.flatten_nil, List.append_nil]
  | cons block blocks ih => rw [inBlocks, ih, List.flatten_cons, ← List.append_assoc, ← h]

end Carrying

namespace Encoding

def Pending : Encoding → List UInt8 → Prop
  | utf8 => Utf8.Pending
  | utf16 => Utf16.Pending

def Chunk : Encoding → Except CodecError UInt32 → List UInt8 → Prop
  | utf8 => Utf8.Chunk
  | utf16 => Utf16.Chunk

theorem cuts (e : Encoding) : Cuts e.step e.Pending e.Chunk := by
  cases e with
  | utf8 => exact Utf8.decodeStep_cuts
  | utf16 => exact Utf16.decodeStep_cuts

/-- Whenever a register of a program holds a sequence of these bytes, decoding it gives these elements. -/
def Decodes (e : Encoding) (bytes : List UInt8) (decoded : List (Except CodecError UInt32)) : Prop :=
  ∀ {program : List (Step Atom)} {fuel : ℕ} {env : Env Atom} {st : Store Atom} (source : ℕ),
    Program.run fuel program [] Store.empty = .ok (env, st) →
    (∃ fuel' st', Sequence.toList fuel' (env.seq .byte source) st = .ok (bytes, st')) →
    ∃ st', Gives (fun fuel => do
      Sequence.toList fuel (← Run.build (e.decode (.given (env.seq .byte source))))) st decoded st'

theorem decode_means (e : Encoding) {w : World Atom} {input : Plan .byte} {T : Shown UInt8}
    (hinput : input.Means w T) :
    ∃ S, (e.decode input).Means w S ∧
      ∀ bs, Lists T.trail bs → Lists S.trail (decodeFrom e.step [] bs) := by
  cases e with
  | utf8 => exact ⟨_, decoder_means Utf8.decodeStep hinput, fun _ => decoder_lists Utf8.decodeStep⟩
  | utf16 => exact ⟨_, decoder_means Utf16.decodeStep hinput, fun _ => decoder_lists Utf16.decodeStep⟩

theorem decodes (e : Encoding) (bytes : List UInt8) : e.Decodes bytes (decodeFrom e.step [] bytes) := by
  rintro program fuel env st source hrun ⟨fuel', st', hbytes⟩
  obtain ⟨vs, w, -, hkept⟩ := Program.run_keeps program kept_empty hrun
  obtain ⟨hformed, -⟩ := seq_reads hkept.reads .byte source
  obtain ⟨values, w₀, hlists, -, hread⟩ := Sequence.lists_of_toList hkept.means hformed hbytes
  obtain rfl := El.list_reading_base.1 hread
  have hinput : (Plan.given (env.seq .byte source)).Means w (Sequence.shown w (env.seq .byte source)) :=
    ⟨hformed, rfl⟩
  obtain ⟨S, hmeans, hdecoded⟩ := e.decode_means hinput
  obtain ⟨w', hl, hs, hshown⟩ := Plan.build_means hmeans hkept.means
  have htrail := hdecoded _ hlists
  rw [← hshown] at htrail
  obtain ⟨elements, st₁, w₁, hgives, -, hread⟩ :=
    Lists.collects htrail hl.means (hl.quiet hkept.quiet) hs
  obtain rfl := El.list_reading_base.1 hread
  exact ⟨st₁, (gives_of_eq rfl).bind hgives⟩

theorem decodeFrom_append (e : Encoding) {a : List UInt8}
    (ha : ∀ front p, decodeFrom e.step [] a ≠ front ++ [.error (.unexpectedEnd p)]) (b : List UInt8) :
    decodeFrom e.step [] (a ++ b) = decodeFrom e.step [] a ++ decodeFrom e.step [] b := by
  rw [e.cuts.decodeFrom_append, carry_of_not_ending ha, List.nil_append]

/-- An input may be cut anywhere: what the first part leaves unfinished is carried over to the second. Each
element stands for a chunk of the input, and the chunks are all of it. -/
theorem decode_in_blocks (e : Encoding) :
    ∃ decoded : List UInt8 → List (Except CodecError UInt32),
      (∀ bytes, (e.decode (.ofList bytes)).Collects (decoded bytes) ∧ e.Decodes bytes (decoded bytes)) ∧
      (∀ bytes, ∃ chunks, List.Forall₂ e.Chunk (decoded bytes) chunks ∧ chunks.flatten = bytes) ∧
      (∀ a b front p, decoded a = front ++ [.error (.unexpectedEnd p)] →
        decoded (a ++ b) = front ++ decoded (p ++ b)) ∧
      (∀ a b, (∀ front p, decoded a ≠ front ++ [.error (.unexpectedEnd p)]) →
        decoded (a ++ b) = decoded a ++ decoded b) ∧
      ∀ blocks, inBlocks decoded [] blocks = decoded blocks.flatten := by
  refine ⟨decodeFrom e.step [], fun bytes => ⟨e.decode_collects bytes, e.decodes bytes⟩,
    e.cuts.run e.cuts.start, ?_, fun a b ha => e.decodeFrom_append ha b,
    inBlocks_flatten e.cuts.decodeFrom_append []⟩
  intro a b front p ha
  rw [e.cuts.decodeFrom_append, ha, carry_early]

end Encoding

end MemoSequence
