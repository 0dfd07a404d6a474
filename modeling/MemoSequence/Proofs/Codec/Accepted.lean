import MemoSequence.Proofs.Codec.RoundTrip
set_option autoImplicit false

namespace MemoSequence.Utf8

/-- A character of more bytes than its number needs. -/
inductive Overlong : List UInt8 → Prop
  | three {b : UInt8} {more : List UInt8} (h : b ≤ 0x9F) : Overlong (0xE0 :: b :: more)
  | four {b : UInt8} {more : List UInt8} (h : b ≤ 0x8F) : Overlong (0xF0 :: b :: more)

inductive Beyond : List UInt8 → Prop
  | four {b : UInt8} {more : List UInt8} (h : 0x90 ≤ b) : Beyond (0xF4 :: b :: more)

inductive Surrogate : List UInt8 → Prop
  | three {b : UInt8} {more : List UInt8} (h : 0xA0 ≤ b) : Surrogate (0xED :: b :: more)

section Numbers
variable {lead b c d : UInt8} {n : ℕ}

theorem ofBits_character (m : ℕ) (lead : UInt8) (more : List UInt8) :
    ofBits (lowBits m lead ++ more.flatMap (lowBits 6)) =
      more.foldl (fun n b => n * 0x40 + b.toNat % 0x40) (lead.toNat % 2 ^ m) := by
  rw [ofBits_append, foldl_payload, ofBits_lowBits]

/-- The number that a character writes, by the count of its bytes. -/
inductive Written : List UInt8 → ℕ → Prop
  | one {b : UInt8} (h : b.toNat ≤ 0x7F) : Written [b] b.toNat
  | two {lead b : UInt8} (hl : 0xC2 ≤ lead.toNat ∧ lead.toNat ≤ 0xDF)
      (hb : 0x80 ≤ b.toNat ∧ b.toNat ≤ 0xBF) :
      Written [lead, b] ((lead.toNat - 0xC0) * 0x40 + (b.toNat - 0x80))
  | three {lead b c : UInt8} (hl : 0xE0 ≤ lead.toNat ∧ lead.toNat ≤ 0xEF)
      (hb : 0x80 ≤ b.toNat ∧ b.toNat ≤ 0xBF) (hc : 0x80 ≤ c.toNat ∧ c.toNat ≤ 0xBF) :
      Written [lead, b, c]
        ((lead.toNat - 0xE0) * 0x1000 + (b.toNat - 0x80) * 0x40 + (c.toNat - 0x80))
  | four {lead b c d : UInt8} (hl : 0xF0 ≤ lead.toNat ∧ lead.toNat ≤ 0xF4)
      (hb : 0x80 ≤ b.toNat ∧ b.toNat ≤ 0xBF) (hc : 0x80 ≤ c.toNat ∧ c.toNat ≤ 0xBF)
      (hd : 0x80 ≤ d.toNat ∧ d.toNat ≤ 0xBF) :
      Written [lead, b, c, d] ((lead.toNat - 0xF0) * 0x40000 + (b.toNat - 0x80) * 0x1000 +
        (c.toNat - 0x80) * 0x40 + (d.toNat - 0x80))

theorem Continuation.toNat (h : Continuation b) : 0x80 ≤ b.toNat ∧ b.toNat ≤ 0xBF := by
  simpa only [Continuation, UInt8.le_iff_toNat_le, UInt8.reduceToNat] using h

theorem Character.written {chunk : List UInt8} (h : Character chunk n) : Written chunk n := by
  cases h with
  | @ascii b h =>
    have hb : b.toNat ≤ 0x7F := by
      simpa only [UInt8.le_iff_toNat_le, UInt8.reduceToNat] using h
    have hvalue : ofBits (lowBits 7 b) = b.toNat := by
      rw [ofBits_lowBits]
      omega
    exact hvalue ▸ .one hb
  | @many lead more hl ht =>
    rw [ofBits_character]
    generalize hlength : more.length = count at hl
    cases hl with
    | two h =>
      obtain ⟨b, rfl⟩ := List.length_eq_one_iff.1 hlength
      have hb := Continuation.toNat (ht b (by simp))
      simp only [UInt8.le_iff_toNat_le, UInt8.reduceToNat] at h
      convert Written.two h hb using 1
      simp only [List.foldl_cons, List.foldl_nil]
      omega
    | three h =>
      obtain ⟨b, c, rfl⟩ := List.length_eq_two.1 hlength
      have hb := Continuation.toNat (ht b (by simp))
      have hc := Continuation.toNat (ht c (by simp))
      simp only [UInt8.le_iff_toNat_le, UInt8.reduceToNat] at h
      convert Written.three h hb hc using 1
      simp only [List.foldl_cons, List.foldl_nil]
      omega
    | four h =>
      obtain ⟨b, c, d, rfl⟩ := List.length_eq_three.1 hlength
      have hb := Continuation.toNat (ht b (by simp))
      have hc := Continuation.toNat (ht c (by simp))
      have hd := Continuation.toNat (ht d (by simp))
      simp only [UInt8.le_iff_toNat_le, UInt8.reduceToNat] at h
      convert Written.four h hb hc hd using 1
      simp only [List.foldl_cons, List.foldl_nil]
      omega

end Numbers

section Bands
variable {lead b : UInt8} {more chunk : List UInt8} {n : ℕ}

theorem overlong_cons : Overlong (lead :: b :: more) ↔
    (lead.toNat = 0xE0 ∧ b.toNat ≤ 0x9F) ∨ (lead.toNat = 0xF0 ∧ b.toNat ≤ 0x8F) := by
  constructor
  · intro h
    cases h with
    | three h => exact .inl ⟨rfl, h⟩
    | four h => exact .inr ⟨rfl, h⟩
  · rintro (⟨hl, hb⟩ | ⟨hl, hb⟩)
    · obtain rfl : lead = 0xE0 := UInt8.toNat_inj.1 hl
      exact .three hb
    · obtain rfl : lead = 0xF0 := UInt8.toNat_inj.1 hl
      exact .four hb

theorem beyond_cons : Beyond (lead :: b :: more) ↔ lead.toNat = 0xF4 ∧ 0x90 ≤ b.toNat := by
  constructor
  · intro h
    cases h with
    | four h => exact ⟨rfl, h⟩
  · rintro ⟨hl, hb⟩
    obtain rfl : lead = 0xF4 := UInt8.toNat_inj.1 hl
    exact .four hb

theorem surrogate_cons : Surrogate (lead :: b :: more) ↔ lead.toNat = 0xED ∧ 0xA0 ≤ b.toNat := by
  constructor
  · intro h
    cases h with
    | three h => exact ⟨rfl, h⟩
  · rintro ⟨hl, hb⟩
    obtain rfl : lead = 0xED := UInt8.toNat_inj.1 hl
    exact .three hb

theorem byte_eq {n : ℕ} (h : n = b.toNat) : UInt8.ofNat n = b := by
  rw [h, UInt8.ofNat_toNat]

theorem continuing_eq {n : ℕ} (h : 0x80 + n % 0x40 = b.toNat) : bytes?.continuing n = b := byte_eq h

theorem length_of_bytes (h : bytes? n = some chunk) :
    (chunk.length = 2 → n < 0x800) ∧ (chunk.length = 3 → 0x800 ≤ n) ∧
      (chunk.length = 4 → 0x10000 ≤ n ∧ n < 0x110000) := by
  unfold bytes? at h
  split_ifs at h <;> obtain rfl := Option.some.inj h <;> simp <;> omega

theorem Written.bytes?_iff (h : Written chunk n) :
    bytes? n = some chunk ↔ ¬ Overlong chunk ∧ ¬ Beyond chunk := by
  cases h with
  | @one b h =>
    refine iff_of_true ?_ ⟨nofun, nofun⟩
    rw [bytes?, if_pos (by omega), UInt8.ofNat_toNat]
  | @two lead b hl hb =>
    refine iff_of_true ?_ ?_
    · rw [bytes?, if_neg (by omega), if_pos (by omega), byte_eq (b := lead) (by omega),
        continuing_eq (b := b) (by omega)]
    · rw [overlong_cons, beyond_cons]
      omega
  | @three lead b c hl hb hc =>
    rw [overlong_cons, beyond_cons]
    constructor
    · intro h
      have := (length_of_bytes h).2.1 rfl
      omega
    · rintro ⟨hover, hbeyond⟩
      rw [bytes?, if_neg (by omega), if_neg (by omega), if_pos (by omega),
        byte_eq (b := lead) (by omega), continuing_eq (b := b) (by omega),
        continuing_eq (b := c) (by omega)]
  | @four lead b c d hl hb hc hd =>
    rw [overlong_cons, beyond_cons]
    constructor
    · intro h
      have := (length_of_bytes h).2.2 rfl
      omega
    · rintro ⟨hover, hbeyond⟩
      rw [bytes?, if_neg (by omega), if_neg (by omega), if_neg (by omega), if_pos (by omega),
        byte_eq (b := lead) (by omega), continuing_eq (b := b) (by omega),
        continuing_eq (b := c) (by omega), continuing_eq (b := d) (by omega)]

theorem Written.scalar_iff (h : Written chunk n) (hover : ¬ Overlong chunk) (hbeyond : ¬ Beyond chunk) :
    (n ≤ 0x10FFFF ∧ ¬ (0xD800 ≤ n ∧ n ≤ 0xDFFF)) ↔ ¬ Surrogate chunk := by
  cases h with
  | one h => exact iff_of_true (by omega) nofun
  | two hl hb =>
    rw [surrogate_cons]
    omega
  | three hl hb hc =>
    rw [overlong_cons] at hover
    rw [surrogate_cons]
    omega
  | four hl hb hc hd =>
    rw [overlong_cons] at hover
    rw [beyond_cons] at hbeyond
    rw [surrogate_cons]
    omega

end Bands

section Inputs
variable {bs : List UInt8} {cps : List UInt32} {chunks : List (List UInt8)}

theorem encodeCodePoint_eq_ok {c : UInt32} {chunk : List UInt8} :
    encodeCodePoint c = chunk.map .ok ↔ bytes? c.toNat = some chunk := by
  unfold encodeCodePoint
  cases h : bytes? c.toNat with
  | none =>
    refine iff_of_false ?_ nofun
    cases chunk <;> simp
  | some bytes =>
    have hinj : Function.Injective (Except.ok : UInt8 → Except CodecError UInt8) := fun _ _ => Except.ok.inj
    simp only [Option.some.injEq]
    exact hinj.list_map.eq_iff

theorem forall_mem_ok_of_append {xs ys : List (Except CodecError UInt8)} {bs : List UInt8}
    (h : xs ++ ys = bs.map .ok) : ∃ a b, bs = a ++ b ∧ xs = a.map .ok ∧ ys = b.map .ok := by
  obtain ⟨a, b, rfl, ha, hb⟩ := List.map_eq_append_iff.1 h.symm
  exact ⟨a, b, rfl, ha.symm, hb.symm⟩

/-- If the encoder gives back the input, it does so character by character. -/
theorem exists_characters_of_encoded (h : cps.flatMap encodeCodePoint = bs.map .ok) :
    ∃ chunks, List.Forall₂ (fun c chunk => bytes? c.toNat = some chunk) cps chunks ∧
      chunks.flatten = bs := by
  induction cps generalizing bs with
  | nil => exact ⟨[], .nil, by simpa using h⟩
  | cons c cps ih =>
    obtain ⟨chunk, rest, rfl, hc, hrest⟩ := forall_mem_ok_of_append h
    obtain ⟨chunks, hchunks, rfl⟩ := ih hrest
    exact ⟨chunk :: chunks, .cons (encodeCodePoint_eq_ok.1 hc) hchunks, rfl⟩

theorem encoded_of_characters
    (h : List.Forall₂ (fun c chunk => bytes? (UInt32.toNat c) = some chunk) cps chunks) :
    cps.flatMap encodeCodePoint = chunks.flatten.map .ok := by
  induction h with
  | nil => rfl
  | cons hc _ ih =>
    rw [List.flatMap_cons, ih, encodeCodePoint_eq_ok.2 hc, List.flatten_cons, List.map_append]

theorem forall₂_chunk_ok :
    List.Forall₂ Chunk (cps.map .ok) chunks ↔
      List.Forall₂ (fun c chunk => Character chunk c.toNat) cps chunks := List.forall₂_map_left_iff

/-- The encoder gives back an accepted input exactly if it writes every character of it again. -/
theorem encoded_iff (h : List.Forall₂ (fun c chunk => Character chunk c.toNat) cps chunks) :
    cps.flatMap encodeCodePoint = chunks.flatten.map .ok ↔
      List.Forall₂ (fun c chunk => bytes? c.toNat = some chunk) cps chunks := by
  refine ⟨fun hencoded => ?_, encoded_of_characters⟩
  obtain ⟨chunks', hchunks', hflat⟩ := exists_characters_of_encoded hencoded
  have hcharacters := hchunks'.imp fun _ _ => character_of_bytes
  obtain rfl : chunks' = chunks :=
    chunks_unique (forall₂_chunk_ok.2 hcharacters) (forall₂_chunk_ok.2 h) hflat
  exact hchunks'

theorem encode_collects_iff {out : List (Except CodecError UInt8)} :
    (encode (.ofList cps)).Collects out ↔ cps.flatMap encodeCodePoint = out := by
  have h : (encode (.ofList cps)).Collects (cps.flatMap encodeCodePoint) :=
    Encoding.utf8.encode_collects cps
  exact ⟨h.unique, fun heq => heq ▸ h⟩

theorem forall₂_characters_iff {P : UInt32 → List UInt8 → Prop} {Q : List UInt8 → Prop}
    (h : List.Forall₂ (fun c chunk => Character chunk c.toNat) cps chunks)
    (hiff : ∀ c chunk, Character chunk c.toNat → (P c chunk ↔ Q chunk)) :
    List.Forall₂ P cps chunks ↔ ∀ chunk ∈ chunks, Q chunk := by
  induction h with
  | nil => simp
  | cons hc _ ih => rw [List.forall₂_cons, List.forall_mem_cons, hiff _ _ hc, ih]

theorem scalars_iff (h : List.Forall₂ (fun c chunk => Character chunk c.toNat) cps chunks)
    (hbands : ∀ chunk ∈ chunks, ¬ Overlong chunk ∧ ¬ Beyond chunk) :
    (∀ c ∈ cps, Utf16.Scalar c) ↔ ∀ chunk ∈ chunks, ¬ Surrogate chunk := by
  have hscalar : ∀ c : UInt32, Utf16.Scalar c ↔
      c.toNat ≤ 0x10FFFF ∧ ¬ (0xD800 ≤ c.toNat ∧ c.toNat ≤ 0xDFFF) := by
    intro c
    unfold Utf16.Scalar Utf16.HighSurrogate Utf16.LowSurrogate
    omega
  induction h with
  | nil => simp
  | cons hc _ ih =>
    obtain ⟨⟨hover, hbeyond⟩, hrest⟩ := List.forall_mem_cons.1 hbands
    rw [List.forall_mem_cons, List.forall_mem_cons, hscalar, hc.written.scalar_iff hover hbeyond]
    exact and_congr_right fun _ => ih hrest

end Inputs

/-- An accepted input is a list of characters. The encoder gives it back exactly if none of them is
overlong or beyond 10FFFF, and is given scalar values then exactly if none is a surrogate. -/
theorem accepted_restored_iff (bs : List UInt8) :
    ∃ out : List (Except CodecError UInt32), (decode (.ofList bs)).Collects out ∧
      ∀ cps : List UInt32, out = cps.map .ok →
        ∃ chunks, List.Forall₂ (fun c chunk => Character chunk c.toNat) cps chunks ∧
          chunks.flatten = bs ∧
          ((encode (.ofList cps)).Collects (bs.map .ok) ↔
            ∀ chunk ∈ chunks, ¬ Overlong chunk ∧ ¬ Beyond chunk) ∧
          ((encode (.ofList cps)).Collects (bs.map .ok) →
            ((∀ c ∈ cps, Utf16.Scalar c) ↔ ∀ chunk ∈ chunks, ¬ Surrogate chunk)) := by
  obtain ⟨chunks, hchunks, hflat⟩ := decodeStep_cuts.run decodeStep_cuts.start bs
  refine ⟨decodeFrom decodeStep [] bs, decoder_collects decodeStep bs, fun cps hcps => ?_⟩
  rw [hcps, forall₂_chunk_ok] at hchunks
  rw [List.nil_append] at hflat
  have hencoded : (encode (.ofList cps)).Collects (bs.map .ok) ↔
      ∀ chunk ∈ chunks, ¬ Overlong chunk ∧ ¬ Beyond chunk := by
    rw [encode_collects_iff, ← hflat, encoded_iff hchunks]
    exact forall₂_characters_iff hchunks fun _ _ hc => hc.written.bytes?_iff
  exact ⟨chunks, hchunks, hflat, hencoded, fun h => scalars_iff hchunks (hencoded.1 h)⟩

/-- An overlong zero is decoded like the short one, and is not given back. -/
theorem overlong_zero_accepted :
    (decode (.ofList ([0xE0, 0x80, 0x80] : List UInt8))).Collects [.ok (0 : UInt32)] ∧
      (decode (.ofList ([0] : List UInt8))).Collects [.ok (0 : UInt32)] ∧
      (encode (.ofList ([0] : List UInt32))).Collects [.ok (0 : UInt8)] :=
  ⟨Encoding.utf8.decode_collects [0xE0, 0x80, 0x80], Encoding.utf8.decode_collects [0],
    Encoding.utf8.encode_collects [0]⟩

end MemoSequence.Utf8
