import PocketCalc.Proofs.Postfix.Frame

/-!
# Conversion token by token

A conversion stands in a state: whether an operand is expected, and what waits in each open group.
One token puts something out and leads to the next state, or is refused (`State.advance`).
Converting a text is advancing over its tokens and finishing in the state that is reached
(`convert_eq_run`), so what one token keeps, a whole text keeps.
-/

namespace PocketCalc.Postfix

/-- Where a conversion stands between two tokens. -/
structure State where
  operand : Bool
  inner : List Waiting
  outer : List (List Waiting)

namespace State

/-- Before the first token. -/
def start : State := ⟨true, [], []⟩

/-- What a token puts out and the state behind it. The mark of the end is no token of a text. -/
def advance (s : State) : Token → Except CalcError (List Token × State)
  | .number v => .ok ([.number v], { s with operand := false })
  | .function name => .ok ([], ⟨true, .function name :: s.inner, s.outer⟩)
  | .leftParen => .ok ([], ⟨true, [], s.inner :: s.outer⟩)
  | .rightParen =>
    match s.outer with
    | [] => .error .unmatchedParentheses
    | enclosing :: outer =>
      .ok ((close s.inner enclosing).1, ⟨false, (close s.inner enclosing).2, outer⟩)
  | .operator op =>
    if s.operand && op == .sub then .ok ([.number 0], ⟨true, .negation :: s.inner, s.outer⟩)
    else .ok ((s.inner.takeWhile (Waiting.yieldsTo op)).map Waiting.token,
      ⟨true, .operator op :: s.inner.dropWhile (Waiting.yieldsTo op), s.outer⟩)
  | .invalid c => .error (.invalidCharacter c)
  | .endMark => .ok ([], s)

/-- Advances over tokens one after the other and gathers what they put out. -/
def run (s : State) : List Token → Except CalcError (List Token × State)
  | [] => .ok ([], s)
  | t :: ts => (s.advance t).bind fun p => (p.2.run ts).map fun q => (p.1 ++ q.1, q.2)

/-- Finishes behind the last token. -/
def finish (s : State) : Except CalcError (List Token) := Postfix.finish s.inner s.outer

end State

/-- Converting a token is advancing over it. -/
theorem convert_cons {t : Token} (ht : t ≠ .endMark) (s : State) (ts : List Token) :
    convert s.operand s.inner s.outer (t :: ts) =
      (s.advance t).bind fun p => emit p.1 (convert p.2.operand p.2.inner p.2.outer ts) := by
  obtain ⟨operand, inner, outer⟩ := s
  cases t with
  | endMark => exact absurd rfl ht
  | number v | invalid c => rfl
  | function name | leftParen => exact (emit_nil _).symm
  | rightParen => cases outer <;> rfl
  | operator op =>
    simp only [convert, State.advance]
    split <;> rfl

/-- Converting tokens is advancing over them and finishing. -/
theorem convert_eq_run {ts : List Token} (hmark : .endMark ∉ ts) (s : State) :
    convert s.operand s.inner s.outer ts = (s.run ts).bind fun p => emit p.1 p.2.finish := by
  induction ts generalizing s with
  | nil => exact (emit_nil _).symm
  | cons t ts ih =>
    simp only [List.mem_cons, not_or] at hmark
    rw [convert_cons (Ne.symm hmark.1), State.run]
    cases s.advance t with
    | error e => rfl
    | ok p =>
      simp only [Except.bind]
      rw [ih hmark.2]
      cases p.2.run ts with
      | error e => rfl
      | ok q => exact emit_emit _ _ _

theorem ofTokens_eq_run {ts : List Token} (hmark : .endMark ∉ ts) :
    ofTokens ts = (State.start.run ts).bind fun p => emit p.1 p.2.finish :=
  convert_eq_run hmark .start

namespace State

theorem run_append (s : State) (ts us : List Token) : s.run (ts ++ us) =
    (s.run ts).bind fun p => (p.2.run us).map fun q => (p.1 ++ q.1, q.2) := by
  induction ts generalizing s with
  | nil =>
    simp only [List.nil_append, run, Except.bind]
    cases s.run us <;> rfl
  | cons t ts ih =>
    simp only [List.cons_append, run]
    cases s.advance t with
    | error e => rfl
    | ok p =>
      simp only [Except.bind, ih]
      cases p.2.run ts with
      | error e => rfl
      | ok q =>
        simp only [Except.map]
        cases q.2.run us <;> simp

/-- A run that succeeds, taken apart behind its first token. -/
theorem run_cons_eq_ok {s s' : State} {t : Token} {ts out : List Token}
    (h : s.run (t :: ts) = .ok (out, s')) : ∃ first next others,
    s.advance t = .ok (first, next) ∧ next.run ts = .ok (others, s') ∧ out = first ++ others := by
  simp only [run] at h
  cases hadvance : s.advance t with
  | error e => simp [hadvance, Except.bind] at h
  | ok p =>
    cases hrun : p.2.run ts with
    | error e => simp [hadvance, hrun, Except.bind, Except.map] at h
    | ok q =>
      simp only [hadvance, hrun, Except.bind, Except.map, Except.ok.injEq, Prod.mk.injEq] at h
      obtain ⟨rfl, rfl⟩ := h
      exact ⟨p.1, p.2, q.1, rfl, hrun, rfl⟩

/-- The tokens that still wait, in all groups. -/
def waiting (s : State) : List Token := (s.inner :: s.outer).flatten.map Waiting.token

end State

/-- A conversion that succeeds ends outside all groups and puts out what still waits. -/
theorem exists_run_of_ofTokens {ts r : List Token} (hmark : .endMark ∉ ts)
    (h : ofTokens ts = .ok r) :
    ∃ out s, State.start.run ts = .ok (out, s) ∧ r = out ++ s.waiting := by
  rw [ofTokens_eq_run hmark] at h
  cases hrun : State.start.run ts with
  | error e => simp [hrun, Except.bind] at h
  | ok p =>
    simp only [hrun, Except.bind] at h
    obtain ⟨us, hfinish, rfl⟩ := emit_eq_ok_iff.mp h
    refine ⟨p.1, p.2, rfl, ?_⟩
    unfold State.finish finish at hfinish
    split at hfinish
    · next houter =>
      cases hfinish
      simp [State.waiting, houter]
    · cases hfinish

end PocketCalc.Postfix
