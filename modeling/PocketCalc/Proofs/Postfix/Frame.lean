import PocketCalc.Postfix

/-!
# Conversion inside a group

Between an opening parenthesis and its match the converter neither looks at nor releases what waits
outside. So a text that is converted alone has the same output inside parentheses, whatever waits
around them (`convert_group`).
-/

namespace PocketCalc.Postfix

/-! ## Output in front of a conversion -/

@[simp] theorem emit_nil (r : Except CalcError (List Token)) : emit [] r = r := by
  cases r <;> rfl

theorem emit_emit (ts us : List Token) (r : Except CalcError (List Token)) :
    emit ts (emit us r) = emit (ts ++ us) r := by
  cases r <;> simp [emit, Except.map]

theorem emit_ok (ts us : List Token) : emit ts (.ok us) = .ok (ts ++ us) := rfl

theorem emit_eq_ok_iff {ts r : List Token} {x : Except CalcError (List Token)} :
    emit ts x = .ok r ↔ ∃ us, x = .ok us ∧ r = ts ++ us := by
  cases x <;> simp [emit, Except.map, eq_comm]

/-! ## Closing a group -/

/-- What waits in a group comes out before the function that stands in front of the group. -/
theorem close_fst (inner enclosing : List Waiting) :
    (close inner enclosing).1 = inner.map Waiting.token ++ (close [] enclosing).1 := by
  unfold close
  split <;> simp

theorem close_snd (inner enclosing : List Waiting) :
    (close inner enclosing).2 = (close [] enclosing).2 := by
  unfold close
  split <;> rfl

/-- A closed group adds its output and the function before it to what waits around it. -/
theorem close_complete (enclosing : List Waiting) :
    (close [] enclosing).1 ++ (close [] enclosing).2.map Waiting.token =
      enclosing.map Waiting.token := by
  unfold close
  split <;> simp [Waiting.token]

/-! ## The frame -/

/-- A conversion that succeeds alone succeeds inside a group with the same output. The induction
runs along the tokens, with the groups that are open at the moment between the text and its
surroundings. -/
theorem convert_group {ts r : List Token} {operand : Bool} {inner : List Waiting}
    {outer : List (List Waiting)} (hmark : .endMark ∉ ts)
    (h : convert operand inner outer ts = .ok r)
    (enclosing : List Waiting) (below : List (List Waiting)) (rest : List Token) :
    convert operand inner (outer ++ enclosing :: below) (ts ++ .rightParen :: rest) =
      emit (r ++ (close [] enclosing).1) (convert false (close [] enclosing).2 below rest) := by
  induction ts generalizing operand inner outer r with
  | nil =>
    cases outer with
    | nil =>
      -- the text is at its end, so the parenthesis behind it closes the group around it
      cases h
      simp only [List.nil_append, convert, close_fst inner, close_snd inner]
    | cons group outer => cases h
  | cons t ts ih =>
    have hts : .endMark ∉ ts := fun hmem => hmark (List.mem_cons_of_mem _ hmem)
    cases t with
    | endMark => simp at hmark
    | invalid c => cases h
    | number v =>
      obtain ⟨us, hus, rfl⟩ := emit_eq_ok_iff.mp h
      simp only [List.cons_append, convert, ih hts hus, emit_emit, List.nil_append]
    | function name => exact ih hts h
    | leftParen =>
      have hopen : convert true [] (inner :: outer) ts = .ok r := h
      exact ih hts hopen
    | rightParen =>
      cases outer with
      | nil => cases h
      | cons group outer =>
        -- a group of the text itself closes, above the surroundings
        obtain ⟨us, hus, rfl⟩ := emit_eq_ok_iff.mp h
        simp only [List.cons_append, convert, ih hts hus, emit_emit, List.append_assoc]
    | operator op =>
      simp only [convert] at h
      split at h
      · rename_i hneg
        obtain ⟨us, hus, rfl⟩ := emit_eq_ok_iff.mp h
        simp only [List.cons_append, convert, hneg, if_true, ih hts hus, emit_emit,
          List.nil_append]
      · rename_i hbin
        obtain ⟨us, hus, rfl⟩ := emit_eq_ok_iff.mp h
        simp only [List.cons_append, convert, if_neg hbin, ih hts hus, emit_emit,
          List.append_assoc]

end PocketCalc.Postfix
