import MemoSequence.Proofs.Codec.Blocks
set_option autoImplicit false

namespace MemoSequence.Encoding

def reencoded (e : Encoding) (decoded : List (Except CodecError UInt32)) :
    List (Except CodecError UInt8) :=
  (decoded.filterMap Except.toOption).flatMap e.encodeCodePoint

theorem reencoded_ok (e : Encoding) (cps : List UInt32) :
    e.reencoded (cps.map .ok) = cps.flatMap e.encodeCodePoint := by
  have hok : (cps.map (Except.ok : UInt32 → Except CodecError UInt32)).filterMap Except.toOption = cps := by
    rw [List.filterMap_map]
    exact List.filterMap_some
  rw [reencoded, hok]

section Plans
variable {w : World Atom}

def successShown : Except CodecError UInt32 → Shown UInt32
  | .ok c => .cons c .empty
  | .error _ => .empty

theorem lists_successShown (e : Except CodecError UInt32) :
    Lists (successShown e).trail e.toOption.toList := by
  cases e with
  | ok c => exact .cons_front c _ (.nil 0)
  | error fault => exact .nil 0

theorem successes_means {decoded : Plan .decoded} {T : Shown (Except CodecError UInt32)}
    (h : decoded.Means w T) :
    ∃ S, (successes decoded).Means w S ∧
      ∀ out, Lists T.trail out → Lists S.trail (out.filterMap Except.toOption) := by
  refine ⟨_, Plan.flatMap_means (a := .decoded) (b := .codePoint) (g := successShown) h _ ?_,
    fun out hout => ?_⟩
  · rintro w' - e v ⟨-, rfl⟩
    cases e with
    | ok c => exact Plan.reading_one (k := .codePoint) ⟨trivial, rfl⟩ ⟨.empty, rfl⟩
    | error fault => exact ⟨.empty, rfl⟩
  · rw [List.filterMap_eq_flatMap_toList]
    exact hout.flatMapped lists_successShown

theorem transcode_collects (source target : Encoding) (bs : List UInt8) :
    (source.transcode target (.ofList bs)).Collects
      (target.reencoded (decodeFrom source.step [] bs)) := by
  obtain ⟨decoded, hdecoded, hout⟩ := source.decode_means (Plan.ofList_means (i := Atom.byte) bs [])
  obtain ⟨kept, hkept, hcps⟩ := successes_means hdecoded
  exact (target.encode_means hkept).collects (target.lists_encoded (hcps _ (hout _ (Lists.listed bs))))

end Plans

section Scalars
variable {out : List (Except CodecError UInt32)} {cps : List UInt32}

theorem encodable_of_scalar {c : UInt32} (h : Utf16.Scalar c) (e : Encoding) : e.Encodable c := by
  obtain ⟨hbound, hhigh, hlow⟩ := h
  unfold Utf16.HighSurrogate at hhigh
  unfold Utf16.LowSurrogate at hlow
  cases e with
  | utf8 => exact hbound
  | utf16 => exact ⟨hbound, by omega⟩

theorem scalar_of_regular (h : ∀ e ∈ out, Utf16.Regular e) :
    ∀ c ∈ out.filterMap Except.toOption, Utf16.Scalar c := by
  intro c hc
  obtain ⟨e, he, hec⟩ := List.mem_filterMap.1 hc
  cases e with
  | ok c' =>
    obtain rfl : c' = c := Option.some.inj hec
    exact (h _ he).1
  | error fault => cases hec

theorem exists_encoded (e : Encoding) (h : ∀ c ∈ cps, e.Encodable c) :
    ∃ bytes : List UInt8, cps.flatMap e.encodeCodePoint = bytes.map .ok ∧
      decodeFrom e.step [] bytes = cps.map .ok := by
  have hbytes : ∃ bytes : List UInt8, cps.flatMap e.encodeCodePoint = bytes.map .ok := by
    induction cps with
    | nil => exact ⟨[], rfl⟩
    | cons c rest ih =>
      obtain ⟨hc, hrest⟩ := List.forall_mem_cons.1 h
      obtain ⟨more, hmore⟩ := ih hrest
      obtain ⟨-, bytes, hcode, -⟩ | ⟨hnot, -⟩ := e.encodeCodePoint_cases c
      · exact ⟨bytes ++ more, by rw [List.flatMap_cons, hcode, hmore, List.map_append]⟩
      · exact absurd hc hnot
  obtain ⟨bytes, hbytes⟩ := hbytes
  have hdecoded := e.decodeFrom_encoded cps
  rw [hbytes, Utf16.filterMap_ok, List.filter_eq_self.2 (by simpa using h)] at hdecoded
  exact ⟨bytes, hbytes, hdecoded⟩

theorem reencoded_utf16 (h : ∀ e ∈ out, Utf16.Regular e) :
    utf16.reencoded out = ((out.filter (·.isOk)).flatMap Utf16.original).map .ok := by
  induction out with
  | nil => rfl
  | cons e rest ih =>
    obtain ⟨he, hrest⟩ := List.forall_mem_cons.1 h
    cases e with
    | ok c =>
      obtain ⟨-, bytes, hbytes⟩ := he
      have horiginal : Utf16.original (.ok c) = bytes := by
        rw [Utf16.original, hbytes, Utf16.filterMap_ok]
      have hmore : utf16.reencoded (.ok c :: rest) = bytes.map .ok ++ utf16.reencoded rest :=
        congrArg (· ++ _) hbytes
      rw [hmore, ih hrest, ← List.map_append, List.filter_cons_of_pos rfl, List.flatMap_cons, horiginal]
    | error fault => exact ih hrest

end Scalars

/-- Through UTF-8 and back, UTF-16 loses the bytes of its faults and no others: every element decoded from
the input stands for some bytes of it, and those of the code points come out again. -/
theorem transcode_back (bs : List UInt8) :
    ∃ (out : List (Except CodecError UInt32)) (bytes : List UInt8),
      (utf16.decode (.ofList bs)).Collects out ∧ out.flatMap Utf16.original = bs ∧
      (utf16.transcode utf8 (.ofList bs)).Collects (bytes.map .ok) ∧
      (utf8.transcode utf16 (.ofList bytes)).Collects
        (((out.filter (·.isOk)).flatMap Utf16.original).map .ok) := by
  obtain ⟨chunks, hchunks, hflat⟩ := Utf16.decodeStep_cuts.run Utf16.decodeStep_cuts.start bs
  have hregular := Utf16.forall_regular hchunks
  have hscalar := scalar_of_regular hregular
  obtain ⟨bytes, hbytes, hdecoded⟩ := utf8.exists_encoded fun c hc => encodable_of_scalar (hscalar c hc) utf8
  have hback := utf8.transcode_collects utf16 bytes
  rw [hdecoded, reencoded_ok] at hback
  refine ⟨decodeFrom utf16.step [] bs, bytes, utf16.decode_collects bs, ?_, ?_, ?_⟩
  · exact (Utf16.flatMap_original hchunks).trans (hflat.trans (List.nil_append bs))
  · exact hbytes ▸ utf16.transcode_collects utf8 bs
  · exact reencoded_utf16 hregular ▸ hback

end MemoSequence.Encoding
