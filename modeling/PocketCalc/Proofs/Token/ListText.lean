import PocketCalc.Evaluation
import PocketCalc.Proofs.Decimal.ReadBack
import PocketCalc.Proofs.Postfix.Conservation
import PocketCalc.Proofs.Token.Numerals

/-!
# Lists of tokens are read back

A token that a text can have is read back from its own text (`tokens_text`), and the blank that a
list puts between two texts keeps them apart, whatever they are: two numbers, two names, a name as
long as names can be. So the text of a list of such tokens has exactly these tokens
(`tokens_listText`). The texts of a working are such lists: the tokens of an expression can be read
back unless one of them is refused or is too great for a double, and conversion adds only zeros
(`Postfix.mem_of_ofTokens`).
-/

namespace PocketCalc.Token

open Binary64 (Unsigned)

/-- The tokens that are read back from their text. -/
def Legible : Token → Prop
  | number value => Unsigned value
  | operator _ | leftParen | rightParen => True
  | function name => IsName name
  | endMark | invalid _ => False

/-! ## Reading a list back -/

/-- A token that can be read back is the only one of its text. -/
theorem tokens_text {t : Token} (h : Legible t) : tokens t.text.toList = [t] := by
  cases t with
  | number value =>
    obtain ⟨run, htext, hrun, hvalue⟩ := Decimal.exists_plain h
    rw [text, htext, String.toList_ofList, tokens_numeral hrun, hvalue]
  | operator op =>
    have htext : (operator op).text.toList = [op.symbol] := by simp [text]
    rw [htext, tokens_symbol, tokens_nil]
  | leftParen | rightParen =>
    exact (tokens_cons_of_symbol rfl []).trans (congrArg _ tokens_nil)
  | function name => exact tokens_name h
  | endMark | invalid c => exact h.elim

theorem toList_listText_cons_cons (t u : Token) (ts : List Token) :
    (listText (t :: u :: ts)).toList = t.text.toList ++ ' ' :: (listText (u :: ts)).toList := by
  simp [listText, String.intercalate_cons_cons]

/-- **A list is read back.** The tokens of a list's text are the list. -/
theorem tokens_listText {ts : List Token} (h : ∀ t ∈ ts, Legible t) :
    tokens (listText ts).toList = ts := by
  induction ts with
  | nil => exact tokens_nil
  | cons t ts ih =>
    have ht : tokens t.text.toList = [t] := tokens_text (h t List.mem_cons_self)
    cases ts with
    | nil => simpa [listText] using ht
    | cons u ts =>
      -- no token goes on into the blank, and the blank is no part of the next one
      have hblank : ∀ s, tokens (' ' :: s) = tokens s := fun s => by
        rw [← tokens_dropWhile_isBlank (' ' :: s), ← tokens_dropWhile_isBlank s]
        rfl
      rw [toList_listText_cons_cons, tokens_append (separate_of_symbol rfl _ _), ht, hblank,
        ih fun v hv => h v (List.mem_cons_of_mem _ hv), List.singleton_append]

/-! ## Which tokens a text has -/

/-- Neither a refused character nor a number too great for a double. Such a number is read as
infinity, also with a percent sign. -/
def isRegular : Token → Bool
  | invalid _ => false
  | number value => !value.isInf
  | _ => true

/-- A text whose tokens are regular. -/
def Regular (text : String) : Prop := ∀ t ∈ tokens text.toList, t.isRegular

instance (text : String) : Decidable (Regular text) :=
  inferInstanceAs (Decidable (∀ t ∈ tokens text.toList, t.isRegular))

/-- What is read off a text can be read back. -/
theorem Regular.legible {text : String} (h : Regular text) :
    ∀ t ∈ tokens text.toList, Legible t := by
  intro t ht
  have hregular := h t ht
  obtain ⟨l, -, hlexeme⟩ := exists_lexeme_of_mem ht
  cases hlexeme with
  | numeral hrun =>
    exact Binary64.unsigned_of_toBits_le (Lexeme.numeral hrun).toBits_le
      (by simpa [isRegular] using hregular)
  | percentage hrun =>
    exact Binary64.unsigned_of_toBits_le (Lexeme.percentage hrun).toBits_le
      (by simpa [isRegular] using hregular)
  | name hname => exact hname
  | @symbol c _ _ hc =>
    subst hc
    unfold ofChar at hregular ⊢
    split
    · trivial
    · split
      · trivial
      · split
        · trivial
        · simp_all [isRegular]

/-- What is put into postfix order can be read back. -/
theorem Regular.legible_ofText {text : String} (h : Regular text) {r : List Token}
    (hr : Postfix.ofText text = .ok r) : ∀ t ∈ r, Legible t := by
  intro t ht
  rcases Postfix.mem_of_ofTokens (endMark_notMem_tokens _) hr ht with hmem | rfl
  · exact h.legible t hmem
  · exact ⟨by decide +kernel, by decide +kernel⟩

/-! ## Workings -/

variable [Elementary]

/-- The texts of a working are those of the two lists of tokens. -/
theorem ofText_of_working {text : String} {w : Working} (h : Working.ofText text = .ok w) :
    w.tokens = listText (tokens text.toList) ∧
      ∃ r, Postfix.ofText text = .ok r ∧ w.postfixOrder = listText r := by
  unfold Working.ofText at h
  cases hr : Postfix.ofText text with
  | error e => simp [hr, Except.bind] at h
  | ok r =>
    cases hvalue : StackMachine.evaluate r with
    | error e => simp [hr, hvalue, Except.bind, Except.map] at h
    | ok value =>
      simp only [hr, hvalue, Except.bind, Except.map, Except.ok.injEq] at h
      subst h
      exact ⟨rfl, r, rfl, rfl⟩

/-- **Texts of tokens are faithful.** A list of tokens that can be read back is the list of the tokens
of its text. So the tokens of a regular text and their postfix order, where there is one, are
recovered from the texts that a working shows, and writing them again changes nothing. -/
theorem listText_faithful :
    (∀ ts : List Token, (∀ t ∈ ts, Legible t) → tokens (listText ts).toList = ts) ∧
    ∀ text : String, Regular text →
      (tokens (listText (tokens text.toList)).toList = tokens text.toList ∧
        listText (tokens (listText (tokens text.toList)).toList) =
          listText (tokens text.toList)) ∧
      (∀ r, Postfix.ofText text = .ok r →
        tokens (listText r).toList = r ∧ listText (tokens (listText r).toList) = listText r) ∧
      ∀ w, Working.ofText text = .ok w →
        tokens w.tokens.toList = tokens text.toList ∧ listText (tokens w.tokens.toList) = w.tokens ∧
        Postfix.ofText text = .ok (tokens w.postfixOrder.toList) ∧
        listText (tokens w.postfixOrder.toList) = w.postfixOrder := by
  refine ⟨fun ts hts => tokens_listText hts, ?_⟩
  intro text htext
  have htokens := tokens_listText htext.legible
  have hconverted : ∀ r, Postfix.ofText text = .ok r → tokens (listText r).toList = r :=
    fun r hr => tokens_listText (htext.legible_ofText hr)
  refine ⟨⟨htokens, congrArg _ htokens⟩,
    fun r hr => ⟨hconverted r hr, congrArg _ (hconverted r hr)⟩, ?_⟩
  intro w hw
  obtain ⟨hwt, r, hr, hwp⟩ := ofText_of_working hw
  rw [hwt, hwp, htokens, hconverted r hr]
  exact ⟨rfl, rfl, hr, rfl⟩

/-- Numbers side by side, and names of seven letters side by side. -/
def sampleTokens : List Token :=
  [.number 2.5, .number 0.1, .function "arcsinh", .function "arctanh", .operator .sub, .leftParen,
    .rightParen]

/-- In the expression stand a percentage and a numeral with two points. -/
theorem listText_faithful_samples :
    listText sampleTokens = "2.5 0.1 arcsinh arctanh - ( )" ∧
    tokens "2.5 0.1 arcsinh arctanh - ( )".toList = sampleTokens ∧
    Working.ofText "-(50%+2.5.7)*sqrt9" =
      .ok ⟨"- ( 0.5 + 2.5 ) * sqrt 9", "0 0.5 2.5 + - 9 sqrt *", "-9"⟩ ∧
    tokens "- ( 0.5 + 2.5 ) * sqrt 9".toList = tokens "-(50%+2.5.7)*sqrt9".toList ∧
    Postfix.ofText "-(50%+2.5.7)*sqrt9" = .ok (tokens "0 0.5 2.5 + - 9 sqrt *".toList) := by
  have hlegible : ∀ t ∈ sampleTokens, Legible t := by
    have hname : ∀ name ∈ ["arcsinh", "arctanh"], IsName name := by
      intro name hmem
      simp only [List.mem_cons, List.not_mem_nil, or_false] at hmem
      rcases hmem with rfl | rfl <;> exact ⟨by decide, by decide, List.all_eq_true.mp rfl⟩
    intro t ht
    simp only [sampleTokens, List.mem_cons, List.not_mem_nil, or_false] at ht
    rcases ht with rfl | rfl | rfl | rfl | rfl | rfl | rfl
    · exact ⟨by decide +kernel, by decide +kernel⟩
    · exact ⟨by decide +kernel, by decide +kernel⟩
    · exact hname _ (by simp)
    · exact hname _ (by simp)
    all_goals trivial
  have htext : listText sampleTokens = "2.5 0.1 arcsinh arctanh - ( )" := by decide +kernel
  have hlist := listText_faithful.1 sampleTokens hlegible
  rw [htext] at hlist
  have hworking : Working.ofText "-(50%+2.5.7)*sqrt9" =
      .ok ⟨"- ( 0.5 + 2.5 ) * sqrt 9", "0 0.5 2.5 + - 9 sqrt *", "-9"⟩ := by
    with_unfolding_all rfl
  obtain ⟨htokens, -, hconverted, -⟩ :=
    (listText_faithful.2 "-(50%+2.5.7)*sqrt9" (by decide +kernel)).2.2 _ hworking
  exact ⟨htext, hlist, hworking, htokens, hconverted⟩

end PocketCalc.Token
