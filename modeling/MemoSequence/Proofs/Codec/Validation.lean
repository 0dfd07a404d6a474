import MemoSequence.Proofs.Codec.Blocks
set_option autoImplicit false

namespace MemoSequence.Encoding

abbrev Decoded := List (Except CodecError UInt32)

abbrev Verdict := Except (List CodecError) (List UInt32)

def fault? : Except CodecError UInt32 → Option CodecError
  | .ok _ => none
  | .error fault => some fault

def check : Except CodecError UInt32 → Except (List CodecError) UInt32
  | .ok c => .ok c
  | .error fault => .error [fault]

def reported {α : Type} : Except (List CodecError) α → List CodecError
  | .ok _ => []
  | .error faults => faults

/-- Checks put together into one: all values if none of them fails, and otherwise all faults. -/
structure Combines (combine : List (Except (List CodecError) UInt32) → Verdict) : Prop where
  values : ∀ cps, combine (cps.map .ok) = .ok cps
  faults : ∀ checks faults, .error faults ∈ checks → combine checks = .error (checks.flatMap reported)

def validateBy (combine : List (Except (List CodecError) UInt32) → Verdict) (e : Encoding) (fuel : ℕ)
    (bytes : Plan .byte) : Run Atom Verdict := do
  let decoded ← Run.build (e.decode bytes)
  return combine ((← Sequence.toList fuel decoded).map check)

/-- The answer to an input with these elements. -/
structure Reports (decoded : Decoded) (answer : Verdict) : Prop where
  accepted : (∃ cps, answer = .ok cps) ↔ ∀ fault, .error fault ∉ decoded
  codePoints : ∀ cps, answer = .ok cps ↔ decoded = cps.map .ok
  faults : ∀ faults, answer = .error faults ↔ faults ≠ [] ∧ decoded.filterMap fault? = faults

def Verdict.append : Verdict → Verdict → Verdict
  | .ok cps, .ok cps' => .ok (cps ++ cps')
  | answer, answer' => .error (reported answer ++ reported answer')

/-- Whenever a register of a program holds a sequence of these bytes, checking it gives this answer. -/
def Validates (e : Encoding) (bytes : List UInt8) (answer : Verdict) : Prop :=
  ∀ {program : List (Step Atom)} {fuel : ℕ} {env : Env Atom} {st : Store Atom} (source : ℕ),
    Program.run fuel program [] Store.empty = .ok (env, st) →
    (∃ fuel' st', Sequence.toList fuel' (env.seq .byte source) st = .ok (bytes, st')) →
    ∃ st', Gives (fun fuel => e.validate fuel (.given (env.seq .byte source))) st answer st'

section Verdicts
variable {decoded : Decoded} {faults : List CodecError}

theorem filterMap_fault?_eq_nil : decoded.filterMap fault? = [] ↔ ∀ fault, .error fault ∉ decoded := by
  rw [List.filterMap_eq_nil_iff]
  constructor
  · intro h fault hmem
    cases h _ hmem
  · intro h x hx
    cases x with
    | ok c => rfl
    | error fault => exact absurd hx (h fault)

theorem eq_map_toOption (h : ∀ fault, .error fault ∉ decoded) :
    decoded = (decoded.filterMap Except.toOption).map .ok := by
  induction decoded with
  | nil => rfl
  | cons x decoded ih =>
    cases x with
    | ok c =>
      have hrest := ih fun fault hmem => h fault (List.mem_cons_of_mem _ hmem)
      simp only [List.filterMap_cons, Except.toOption, List.map_cons, ← hrest]
    | error fault => exact absurd List.mem_cons_self (h fault)

theorem filterMap_toOption_ok (cps : List UInt32) :
    (cps.map (Except.ok : UInt32 → Except CodecError UInt32)).filterMap Except.toOption = cps := by
  induction cps with
  | nil => rfl
  | cons c cps ih => simp only [List.map_cons, List.filterMap_cons, Except.toOption, ih]

theorem error_not_mem_ok {ε α : Type} (fault : ε) (xs : List α) :
    (.error fault : Except ε α) ∉ xs.map .ok := by
  intro h
  obtain ⟨x, -, hx⟩ := List.mem_map.1 h
  cases hx

theorem verdict_of_faultless (h : ∀ fault, .error fault ∉ decoded) :
    verdict decoded = .ok (decoded.filterMap Except.toOption) := by
  have hnil : (decoded.filterMap fault?).isEmpty = true :=
    List.isEmpty_iff.2 (filterMap_fault?_eq_nil.2 h)
  exact if_pos hnil

theorem verdict_ok (cps : List UInt32) : verdict (cps.map .ok) = .ok cps := by
  rw [verdict_of_faultless fun fault => error_not_mem_ok fault cps, filterMap_toOption_ok]

theorem verdict_of_faults (hne : faults ≠ []) (h : decoded.filterMap fault? = faults) :
    verdict decoded = .error faults := by
  have hfalse : ¬ (decoded.filterMap fault?).isEmpty = true := by rwa [h, List.isEmpty_iff]
  exact (if_neg hfalse).trans (congrArg Except.error h)

theorem eq_ok_or_faults (decoded : Decoded) :
    (∃ cps : List UInt32, decoded = cps.map .ok) ∨ decoded.filterMap fault? ≠ [] := by
  by_cases h : decoded.filterMap fault? = []
  · exact .inl ⟨_, eq_map_toOption (filterMap_fault?_eq_nil.1 h)⟩
  · exact .inr h

theorem verdict_reports (decoded : Decoded) : Reports decoded (verdict decoded) := by
  obtain ⟨cps, rfl⟩ | hne := eq_ok_or_faults decoded
  · have hnone : (cps.map Except.ok).filterMap fault? = [] :=
      filterMap_fault?_eq_nil.2 fun fault => error_not_mem_ok fault cps
    rw [verdict_ok]
    refine ⟨⟨fun _ fault => error_not_mem_ok fault cps, fun _ => ⟨cps, rfl⟩⟩, fun cps' => ?_,
      fun faults => ?_⟩
    · rw [Except.ok.injEq, List.map_inj_right fun _ _ => Except.ok.inj]
    · exact iff_of_false nofun fun h => h.1 (h.2.symm.trans hnone)
  · have hsome : ¬ ∀ fault, .error fault ∉ decoded := fun h => hne (filterMap_fault?_eq_nil.2 h)
    rw [verdict_of_faults hne rfl]
    refine ⟨iff_of_false nofun hsome, fun cps => iff_of_false nofun ?_, fun faults => ?_⟩
    · rintro rfl
      exact hsome fun fault => error_not_mem_ok fault cps
    · rw [Except.error.injEq]
      exact ⟨fun h => ⟨h ▸ hne, h⟩, And.right⟩

theorem reported_verdict (decoded : Decoded) : reported (verdict decoded) = decoded.filterMap fault? := by
  obtain ⟨cps, rfl⟩ | hne := eq_ok_or_faults decoded
  · rw [verdict_ok, filterMap_fault?_eq_nil.2 fun fault => error_not_mem_ok fault cps]
    rfl
  · rw [verdict_of_faults hne rfl]
    rfl

theorem verdict_append (a b : Decoded) : verdict (a ++ b) = Verdict.append (verdict a) (verdict b) := by
  have hfaults : (a ++ b).filterMap fault? = a.filterMap fault? ++ b.filterMap fault? :=
    List.filterMap_append
  obtain ⟨cps, rfl⟩ | ha := eq_ok_or_faults a
  · obtain ⟨cps', rfl⟩ | hb := eq_ok_or_faults b
    · rw [← List.map_append, verdict_ok, verdict_ok, verdict_ok]
      rfl
    · rw [verdict_of_faults (by simp [hfaults, hb]) rfl, verdict_ok, verdict_of_faults hb rfl, hfaults,
        ← reported_verdict, verdict_ok]
      rfl
  · rw [verdict_of_faults (by simp [hfaults, ha]) rfl, hfaults, verdict_of_faults ha rfl,
      ← reported_verdict b]
    rfl

end Verdicts

section Combining
variable {combine : List (Except (List CodecError) UInt32) → Verdict}

theorem flatMap_reported_check (decoded : Decoded) :
    (decoded.map check).flatMap reported = decoded.filterMap fault? := by
  induction decoded with
  | nil => rfl
  | cons x decoded ih =>
    rw [List.map_cons, List.flatMap_cons, ih]
    cases x <;> rfl

theorem Combines.verdict_eq (h : Combines combine) (decoded : Decoded) :
    combine (decoded.map check) = verdict decoded := by
  obtain ⟨cps, rfl⟩ | hne := eq_ok_or_faults decoded
  · rw [verdict_ok, List.map_map]
    exact h.values cps
  · obtain ⟨fault, hmem⟩ : ∃ fault, .error fault ∈ decoded := by
      by_contra hnone
      exact hne (filterMap_fault?_eq_nil.2 fun fault hmem => hnone ⟨fault, hmem⟩)
    have hcheck : .error [fault] ∈ decoded.map check := List.mem_map.2 ⟨_, hmem, rfl⟩
    rw [h.faults _ _ hcheck, flatMap_reported_check, verdict_of_faults hne rfl]

theorem Combines.validate_eq (h : Combines combine) : validateBy combine = validate := by
  funext e fuel bytes
  simp only [validateBy, validate, h.verdict_eq]

def gather (checks : List (Except (List CodecError) UInt32)) : Verdict :=
  checks.foldr (fun x answer => Verdict.append (x.map ([·])) answer) (.ok [])

theorem reported_append (a b : Verdict) : reported (Verdict.append a b) = reported a ++ reported b := by
  cases a <;> cases b <;> rfl

theorem reported_gather (checks : List (Except (List CodecError) UInt32)) :
    reported (gather checks) = checks.flatMap reported := by
  induction checks with
  | nil => rfl
  | cons x checks ih =>
    have hx : reported (x.map ([·])) = reported x := by cases x <;> rfl
    rw [gather, List.foldr_cons, reported_append, hx, List.flatMap_cons, ← ih, gather]

theorem gather_of_fault {checks : List (Except (List CodecError) UInt32)} {faults : List CodecError}
    (h : .error faults ∈ checks) : ∃ all, gather checks = .error all := by
  induction checks with
  | nil => cases h
  | cons x checks ih =>
    obtain rfl | hrest := List.mem_cons.1 h
    · exact ⟨_, rfl⟩
    · obtain ⟨all, hall⟩ := ih hrest
      rw [gather, List.foldr_cons, ← gather, hall]
      cases x <;> exact ⟨_, rfl⟩

theorem gather_combines : Combines gather where
  values cps := by
    induction cps with
    | nil => rfl
    | cons c cps ih => rw [List.map_cons, gather, List.foldr_cons, ← gather, ih]; rfl
  faults checks faults h := by
    have hreported := reported_gather checks
    obtain ⟨all, hall⟩ := gather_of_fault h
    rw [hall] at hreported ⊢
    exact congrArg Except.error hreported

end Combining

theorem validates_of_decodes {e : Encoding} {bytes : List UInt8} {decoded : Decoded}
    (h : e.Decodes bytes decoded) : e.Validates bytes (verdict decoded) := by
  intro program fuel env st source hrun hbytes
  obtain ⟨st', hgives⟩ := h source hrun hbytes
  exact ⟨st', hgives.bind (gives_of_eq rfl)⟩

/-- However checks are put together, the answer has every fault of the input and only these, and an input
that is cut behind a character has the answers of its parts, one after the other. -/
theorem validate_reports (e : Encoding) {combine : List (Except (List CodecError) UInt32) → Verdict}
    (h : Combines combine) :
    e.validate = e.validateBy combine ∧
      ∃ (decoded : List UInt8 → Decoded) (answer : List UInt8 → Verdict),
        (∀ bytes, (e.decode (.ofList bytes)).Collects (decoded bytes) ∧ e.Decodes bytes (decoded bytes)) ∧
        (∀ bytes, e.Validates bytes (answer bytes)) ∧
        (∀ bytes, Reports (decoded bytes) (answer bytes)) ∧
        ∀ a b, (∀ front p, decoded a ≠ front ++ [.error (.unexpectedEnd p)]) →
          answer (a ++ b) = Verdict.append (answer a) (answer b) := by
  refine ⟨by rw [h.validate_eq], decodeFrom e.step [], fun bytes => verdict (decodeFrom e.step [] bytes),
    fun bytes => ⟨e.decode_collects bytes, e.decodes bytes⟩,
    fun bytes => validates_of_decodes (e.decodes bytes), fun bytes => verdict_reports _, fun a b ha => ?_⟩
  exact (congrArg verdict (e.decodeFrom_append ha b)).trans (verdict_append _ _)

theorem strays_reported :
    Combines gather ∧
      (utf8.validateBy gather 20 (.ofList ([0x41, 0xFF, 0x42, 0xFE, 0xC3] : List UInt8)) Store.empty).map
          Prod.fst =
        .ok (.error [.invalidSequence [0xFF], .invalidSequence [0xFE], .unexpectedEnd [0xC3]]) ∧
      utf8.validate = utf8.validateBy gather ∧
        ∃ (decoded : List UInt8 → Decoded) (answer : List UInt8 → Verdict),
          (∀ bytes, (utf8.decode (.ofList bytes)).Collects (decoded bytes) ∧
            utf8.Decodes bytes (decoded bytes)) ∧
          (∀ bytes, utf8.Validates bytes (answer bytes)) ∧
          (∀ bytes, Reports (decoded bytes) (answer bytes)) ∧
          ∀ a b, (∀ front p, decoded a ≠ front ++ [.error (.unexpectedEnd p)]) →
            answer (a ++ b) = Verdict.append (answer a) (answer b) := by
  exact ⟨gather_combines, by decide +kernel, validate_reports utf8 gather_combines⟩

end MemoSequence.Encoding
