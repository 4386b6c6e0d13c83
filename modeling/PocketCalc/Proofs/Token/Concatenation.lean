import Mathlib.Data.List.DropRight
import PocketCalc.Token.Reading

/-!
# The tokens of a concatenation

Reading looks past the end of a token only to see whether the token goes on, and it goes on only
into a character that its last one `joins`. Cut anywhere else, a text has the tokens of its two
parts one after the other (`tokens_append`).
-/

namespace PocketCalc.Token

/-- The character `d` can stand directly behind `c` inside one token. -/
def joins (c d : Char) : Bool :=
  (isNumeric c && (isNumeric d || d == '%')) || (c.isLower && d.isLower)

/-- No token goes on from the end of `s` into the beginning of `t`. -/
def Separate (s t : List Char) : Prop :=
  ∀ c ∈ s.getLast?, ∀ d ∈ t.head?, joins c d = false

/-- Only the end of the first part counts. -/
theorem Separate.suffix {pre s t : List Char} (h : Separate (pre ++ s) t) : Separate s t := by
  intro c hc
  refine h c ?_
  rw [List.getLast?_append, Option.mem_def.mp hc]
  rfl

/-- A character that goes on from nothing ends every token before it. -/
theorem separate_of_symbol {c : Char} (h : (isNumeric c || c == '%' || c.isLower) = false)
    (s t : List Char) : Separate s (c :: t) := by
  intro d _ e he
  cases he
  simp only [Bool.or_eq_false_iff] at h
  simp [joins, h]

theorem getLast?_mem_of_all {p : Char → Bool} {c : Char} {s : List Char} (h : ∀ x ∈ c :: s, p x) :
    ∃ d ∈ (c :: s).getLast?, p d :=
  ⟨(c :: s).getLast (by simp), List.getLast?_eq_some_getLast _, h _ (List.getLast_mem _)⟩

/-! ## Runs of characters -/

/-- A run that ends inside `s`, or exactly where `t` does not go on, is not longer in `s ++ t`. -/
theorem span_append {p : Char → Bool} {s t : List Char}
    (h : (∀ c ∈ s, p c) → ∀ d ∈ t.head?, p d = false) :
    (s ++ t).takeWhile p = s.takeWhile p ∧ (s ++ t).dropWhile p = s.dropWhile p ++ t := by
  induction s with
  | nil =>
    cases t with
    | nil => simp
    | cons d t => simp [h (by simp) d (by simp)]
  | cons c s ih =>
    by_cases hc : p c
    · have hs : (∀ x ∈ s, p x) → ∀ d ∈ t.head?, p d = false :=
        fun hall => h (by simpa [hc] using hall)
      simp [hc, ih hs]
    · simp [hc]

/-- The name at the front of `s` is the name at the front of `s ++ t`: it is cut by its limit or
ends before `t`, unless all of `s` belongs to it and `t` goes on. -/
theorem name_append {s t : List Char} {n : Nat}
    (h : (∀ c ∈ s, c.isLower) → ∀ d ∈ t.head?, d.isLower = false) :
    ((s ++ t).take n).takeWhile Char.isLower = (s.take n).takeWhile Char.isLower := by
  rw [List.take_append]
  refine (span_append ?_).1
  intro hall d hd
  by_cases hn : n ≤ s.length
  · rw [Nat.sub_eq_zero_of_le hn] at hd
    simp at hd
  · have htake : s.take n = s := List.take_of_length_le (by omega)
    rw [htake] at hall
    cases t with
    | nil => simp at hd
    | cons e t =>
      obtain ⟨k, hk⟩ : ∃ k, n - s.length = k + 1 := ⟨n - s.length - 1, by omega⟩
      rw [hk] at hd
      simp only [List.take_succ_cons, List.head?_cons, Option.mem_def, Option.some.injEq] at hd
      exact h hall d (by simp [hd])

/-! ## One token -/

theorem readNumber_append (run : List Char) {after t : List Char}
    (h : after = [] → ∀ d ∈ t.head?, d ≠ '%') :
    readNumber run (after ++ t) =
      ((readNumber run after).1, (readNumber run after).2.1, (readNumber run after).2.2 ++ t) := by
  cases after with
  | nil =>
    cases t with
    | nil => rfl
    | cons d t =>
      have hd : d ≠ '%' := h rfl d (by simp)
      simp [readNumber, hd]
  | cons d after =>
    by_cases hd : d = '%'
    · subst hd
      rfl
    · simp [readNumber, hd]

/-- A token is read the same whatever stands behind its text, as long as it does not go on. -/
theorem readFrom_append {c : Char} {cs t : List Char} (h : Separate (c :: cs) t) :
    readFrom c (cs ++ t) =
      ((readFrom c cs).1, (readFrom c cs).2.1, (readFrom c cs).2.2 ++ t) := by
  have hend : ∀ {p : Char → Bool}, (∀ x ∈ c :: cs, p x) → ∀ d ∈ t.head?,
      ∃ e, p e ∧ joins e d = false := by
    intro p hall d hd
    obtain ⟨e, he, hpe⟩ := getLast?_mem_of_all hall
    exact ⟨e, hpe, h e he d hd⟩
  unfold readFrom
  by_cases hnum : isNumeric c
  · simp only [hnum, if_true]
    have hstop : (∀ x ∈ cs, isNumeric x) → ∀ d ∈ t.head?, isNumeric d = false ∧ d ≠ '%' := by
      intro hall d hd
      obtain ⟨e, he, hed⟩ := hend (p := isNumeric) (by simpa [hnum] using hall) d hd
      simp_all [joins]
    obtain ⟨htake, hdrop⟩ := span_append (p := isNumeric) (s := cs) (t := t)
      fun hall d hd => (hstop hall d hd).1
    rw [htake, hdrop]
    refine readNumber_append _ ?_
    intro hnil d hd
    exact (hstop (List.dropWhile_eq_nil_iff.mp hnil) d hd).2
  · simp only [hnum, Bool.false_eq_true, if_false]
    by_cases hlow : c.isLower
    · simp only [hlow, if_true]
      have hname : ((c :: cs ++ t).take nameLimit).takeWhile Char.isLower =
          ((c :: cs).take nameLimit).takeWhile Char.isLower := by
        refine name_append ?_
        intro hall d hd
        obtain ⟨e, he, hed⟩ := hend (p := Char.isLower) hall d hd
        simp_all [joins]
      rw [List.cons_append] at hname
      have hle : (((c :: cs).take nameLimit).takeWhile Char.isLower).length ≤ (c :: cs).length :=
        Nat.le_trans (List.takeWhile_prefix _).length_le (List.length_take_le' _ _)
      rw [hname, ← List.cons_append, List.drop_append_of_le_length hle]
    · simp [hlow]

/-- The first token of `s` is the first token of `s ++ t`. -/
theorem read?_append {s t : List Char} {r : Reading} (hr : read? s = some r)
    (h : Separate s t) : read? (s ++ t) = some { r with rest := r.rest ++ t } := by
  unfold read? at hr ⊢
  split at hr
  · cases hr
  · rename_i c cs hs
    have hblank : ¬ ∀ x ∈ s, isBlank x := by
      intro hall
      rw [List.dropWhile_eq_nil_iff.mpr hall] at hs
      cases hs
    obtain ⟨htake, hdrop⟩ := span_append (p := isBlank) (s := s) (t := t)
      fun hall => absurd hall hblank
    have hsep : Separate (c :: cs) t := by
      rw [← List.takeWhile_append_dropWhile (p := isBlank) (l := s), hs] at h
      exact h.suffix
    rw [hdrop, hs, List.cons_append]
    simp only [readFrom_append hsep, htake, Option.some.injEq] at hr ⊢
    rw [← hr]

/-! ## All tokens -/

@[simp] theorem tokens_nil : tokens [] = [] := tokens_of_none rfl

/-- Blanks at the front of a text have no influence. -/
theorem tokens_dropWhile_isBlank (s : List Char) : tokens (s.dropWhile isBlank) = tokens s := by
  have hidem := List.dropWhile_idempotent isBlank s
  cases hs : s.dropWhile isBlank with
  | nil =>
    rw [tokens_of_none (read?_eq_none_iff.mpr rfl), tokens_of_none (read?_eq_none_iff.mpr hs)]
  | cons c cs =>
    have hread : ∀ u : List Char, u.dropWhile isBlank = c :: cs → read? u = some
        ⟨u.takeWhile isBlank, (readFrom c cs).1, (readFrom c cs).2.1, (readFrom c cs).2.2⟩ := by
      intro u hu
      unfold read?
      rw [hu]
    rw [hs] at hidem
    rw [tokens_of_some (hread _ hidem), tokens_of_some (hread _ hs)]

/-- **Tokens of a concatenation.** Where no token goes on over the cut, the tokens of the whole
text are those of its parts. -/
theorem tokens_append {s t : List Char} (h : Separate s t) :
    tokens (s ++ t) = tokens s ++ tokens t := by
  induction hn : s.length using Nat.strongRecOn generalizing s with
  | ind n ih =>
    cases hr : read? s with
    | none =>
      have hs : ∀ c ∈ s, isBlank c := List.dropWhile_eq_nil_iff.mp (read?_eq_none_iff.mp hr)
      rw [tokens_of_none hr, List.nil_append, ← tokens_dropWhile_isBlank (s ++ t),
        List.dropWhile_append_of_pos hs, tokens_dropWhile_isBlank]
    | some r =>
      -- the first token is the same, and the rest of `s` ends where `s` ends
      have hrest : Separate r.rest t := by
        rw [← read?_tiles hr, ← List.append_assoc] at h
        exact h.suffix
      rw [tokens_of_some (read?_append hr h), tokens_of_some hr, List.cons_append,
        ih r.rest.length (hn ▸ read?_rest_lt hr) hrest rfl]

/-- Reading never finds the mark of the end. -/
theorem readFrom_token_ne_endMark (c : Char) (cs : List Char) : (readFrom c cs).2.1 ≠ .endMark := by
  unfold readFrom
  split
  · unfold readNumber
    split <;> simp
  · split
    · simp
    · simp only [ofChar]
      split
      · simp
      · split
        · simp
        · split <;> simp

theorem endMark_notMem_tokens (s : List Char) : .endMark ∉ tokens s := by
  induction hn : s.length using Nat.strongRecOn generalizing s with
  | ind n ih =>
    cases hr : read? s with
    | none => simp [tokens_of_none hr]
    | some r =>
      rw [tokens_of_some hr, List.mem_cons, not_or]
      refine ⟨?_, ih _ (hn ▸ read?_rest_lt hr) _ rfl⟩
      unfold read? at hr
      split at hr
      · cases hr
      · cases hr
        exact (readFrom_token_ne_endMark _ _).symm

/-! ## Texts of one token -/

/-- A character that neither is blank nor starts a numeral or a name is a token by itself. -/
theorem tokens_cons_of_symbol {c : Char} (h : (isBlank c || isNumeric c || c.isLower) = false)
    (s : List Char) : tokens (c :: s) = ofChar c :: tokens s := by
  simp only [Bool.or_eq_false_iff] at h
  obtain ⟨⟨hblank, hnumeric⟩, hlower⟩ := h
  have hread : read? (c :: s) = some ⟨[], [c], ofChar c, s⟩ := by
    simp [read?, hblank, readFrom, hnumeric, hlower]
  exact tokens_of_some hread

theorem tokens_symbol (op : Operator) (s : List Char) :
    tokens (op.symbol :: s) = .operator op :: tokens s := by
  rw [tokens_cons_of_symbol (by cases op <;> rfl)]
  simp [ofChar]

/-- A class of characters without the two blanks. -/
theorem isBlank_eq_false {p : Char → Bool} (hspace : p ' ' = false) (htab : p '\t' = false)
    {c : Char} (h : p c) : isBlank c = false := by
  rw [Bool.eq_false_iff]
  intro hblank
  simp only [isBlank, Bool.or_eq_true, beq_iff_eq] at hblank
  rcases hblank with rfl | rfl
  · rw [hspace] at h
    cases h
  · rw [htab] at h
    cases h

/-- A text that a number token can carry: digits and points. -/
structure IsNumeral (run : List Char) : Prop where
  nonempty : run ≠ []
  isNumeric : ∀ c ∈ run, isNumeric c

/-- A numeral is read as one token. -/
theorem tokens_numeral {run : List Char} (h : IsNumeral run) :
    tokens run = [.number (Decimal.readNumeral run)] := by
  obtain ⟨c, cs, rfl⟩ := List.exists_cons_of_ne_nil h.nonempty
  have hc : isNumeric c := h.isNumeric c (by simp)
  have hcs : ∀ d ∈ cs, isNumeric d := fun d hd => h.isNumeric d (by simp [hd])
  have hread : read? (c :: cs) =
      some ⟨[], c :: cs, .number (Decimal.readNumeral (c :: cs)), []⟩ := by
    have hblank := isBlank_eq_false rfl rfl hc
    have htake := List.takeWhile_eq_self_iff.mpr hcs
    have hdrop := List.dropWhile_eq_nil_iff.mpr hcs
    simp only [read?, List.dropWhile_cons, List.takeWhile_cons, hblank, readFrom, hc, htake, hdrop,
      readNumber, Bool.false_eq_true, if_false, if_true]
  rw [tokens_of_some hread, tokens_of_none (by rfl)]

/-- A text that a name token can carry: one to seven lower-case letters. -/
structure IsName (name : String) : Prop where
  nonempty : name.toList ≠ []
  length_le : name.toList.length ≤ nameLimit
  isLower : ∀ c ∈ name.toList, c.isLower

theorem isNumeric_of_isLower {c : Char} (h : c.isLower) : isNumeric c = false := by
  have h : (c.val ≥ 'a'.val && c.val ≤ 'z'.val) = true := h
  simp only [ge_iff_le, Bool.and_eq_true, decide_eq_true_eq] at h
  have hdot : c ≠ '.' := by
    rintro rfl
    simp at h
  have hnine : '9'.val < c.val := UInt32.lt_of_lt_of_le (by decide) h.1
  simpa [isNumeric, Char.isDigit, hdot] using fun _ => hnine

/-- A name is read as one token. -/
theorem tokens_name {name : String} (h : IsName name) : tokens name.toList = [.function name] := by
  obtain ⟨c, cs, hcs⟩ := List.exists_cons_of_ne_nil h.nonempty
  have hlow : ∀ d ∈ c :: cs, d.isLower := hcs ▸ h.isLower
  have hc : c.isLower := hlow c (by simp)
  have htake : (c :: cs).take nameLimit = c :: cs :=
    List.take_of_length_le (by rw [← hcs]; exact h.length_le)
  have hname : (c :: cs).takeWhile Char.isLower = c :: cs := List.takeWhile_eq_self_iff.mpr hlow
  have hof : String.ofList (c :: cs) = name := by rw [← hcs, String.ofList_toList]
  have hread : read? name.toList = some ⟨[], c :: cs, .function name, []⟩ := by
    have hblank := isBlank_eq_false rfl rfl hc
    have hnum := isNumeric_of_isLower hc
    simp only [hcs, read?, List.dropWhile_cons, List.takeWhile_cons, hblank, readFrom, hnum, hc,
      htake, hname, hof, Bool.false_eq_true, if_false, if_true, List.drop_length]
  rw [tokens_of_some hread, tokens_of_none (by rfl)]

end PocketCalc.Token
