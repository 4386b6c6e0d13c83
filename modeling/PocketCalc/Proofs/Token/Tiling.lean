import Mathlib.Logic.Function.Iterate
import PocketCalc.Proofs.Token.Lexemes
import PocketCalc.Token.Cursor

/-!
# A cursor tiles its text

Asked again and again, a cursor gives the tokens of its text, one at each call, and then the mark of
the end for ever. Its position grows with each token, by the blanks in front of the lexeme and by
the lexeme, and stands between two characters every time; in the end it is the size of the text. So
the passed pieces lie side by side and cover the text (`calls_tile`).

The invariant of all calls is that the characters passed and those ahead make up the text, that the
position counts the bytes of the former, and that no numeral has been cut between the two
(`Cursor.Splits`).
-/

namespace PocketCalc.Token

/-! ## Sizes and places -/

theorem byteSize_eq (s : List Char) : byteSize s = (String.ofList s).utf8ByteSize := by
  induction s with
  | nil => rfl
  | cons c s ih =>
    rw [byteSize, ih, String.ofList_cons, String.utf8ByteSize_append, String.utf8ByteSize_singleton]

theorem byteSize_toList (text : String) : byteSize text.toList = text.utf8ByteSize := by
  rw [byteSize_eq, String.ofList_toList]

theorem byteSize_pos {s : List Char} (h : s ≠ []) : 0 < byteSize s := by
  obtain ⟨c, cs, rfl⟩ := List.exists_cons_of_ne_nil h
  rw [byteSize]
  have := c.utf8Size_pos
  omega

/-- A numeral does not go on from the end of `s` into the beginning of `t`. -/
def Uncut (s t : List Char) : Prop :=
  ∀ c ∈ s.getLast?, isNumeric c → ∀ d ∈ t.head?, isNumeric d = false

/-- Only the end of the first part counts. -/
theorem Uncut.append {s t : List Char} (h : Uncut s t) (hs : s ≠ []) (front : List Char) :
    Uncut (front ++ s) t := by
  rw [Uncut, List.getLast?_append_of_ne_nil _ hs]
  exact h

/-- Blanks cut no numeral. -/
theorem Uncut.blanks {s blanks t : List Char} (h : Uncut s (blanks ++ t))
    (hblanks : ∀ b ∈ blanks, isBlank b) : Uncut (s ++ blanks) t := by
  rcases List.eq_nil_or_concat blanks with rfl | ⟨front, b, rfl⟩
  · simpa using h
  · intro c hc hnumeric
    have hlast : c = b := by simpa [← List.append_assoc] using hc.symm
    have hblank := isBlank_eq_false (p := isNumeric) rfl rfl hnumeric
    rw [hlast, hblanks b (by simp)] at hblank
    cases hblank

/-- Behind a full lexeme no numeral is cut. -/
theorem FullLexeme.uncut {l after : List Char} {t : Token} (h : FullLexeme l t after) :
    Uncut l after := by
  have hsingle : ∀ {c : Char}, isNumeric c = false → Uncut [c] after := by
    intro c hc d hd hnumeric
    obtain rfl : c = d := by simpa using hd
    rw [hc] at hnumeric
    cases hnumeric
  cases h with
  | numeral _ hstop => exact fun c _ _ d hd => (hstop d hd).1
  | percentage _ =>
    intro c hc hnumeric
    obtain rfl : '%' = c := by simpa using hc
    cases hnumeric
  | name hname _ =>
    intro c hc hnumeric
    have hlower := hname.isLower c (List.mem_of_getLast? hc)
    rw [isNumeric_of_isLower hlower] at hnumeric
    cases hnumeric
  | @operator op _ => exact hsingle (by cases op <;> rfl)
  | leftParen | rightParen => exact hsingle rfl
  | invalid hclass _ _ _ =>
    simp only [Bool.or_eq_false_iff] at hclass
    exact hsingle hclass.1.2

/-! ## One call -/

theorem isBlank_of_read? {s : List Char} {r : Reading} (h : read? s = some r) :
    ∀ b ∈ r.blanks, isBlank b := by
  unfold read? at h
  split at h
  · cases h
  · cases h
    exact fun b hb => List.mem_takeWhile_imp hb

namespace Cursor

/-- The characters `passed` are those that the cursor has passed in the text. -/
structure Splits (text : String) (passed : List Char) (c : Cursor) : Prop where
  tiles : passed ++ c.rest = text.toList
  position : c.position = byteSize passed
  uncut : Uncut passed c.rest

theorem splits_start (text : String) : Splits text [] (start text) :=
  ⟨rfl, rfl, nofun⟩

/-- The position stands between two characters of the text. -/
theorem Splits.isValid {text : String} {passed : List Char} {c : Cursor}
    (h : Splits text passed c) : String.Pos.Raw.IsValid text ⟨c.position⟩ := by
  refine String.Pos.Raw.isValid_iff_exists_append.mpr
    ⟨String.ofList passed, String.ofList c.rest, ?_, ?_⟩
  · rw [← String.ofList_append, h.tiles, String.ofList_toList]
  · rw [h.position, byteSize_eq]
    rfl

theorem Splits.position_le {text : String} {passed : List Char} {c : Cursor}
    (h : Splits text passed c) : c.position ≤ text.utf8ByteSize := by
  rw [h.position, ← byteSize_toList, ← h.tiles, byteSize_append]
  omega

/-- Between two positions of the text lie blanks and then the lexeme of the token, which reaches as
far as it can and does not begin inside a run of digits and points. -/
def Passes (text : String) (first : Nat) (t : Token) (last : Nat) : Prop :=
  ∃ passed blanks lexeme after, passed ++ (blanks ++ (lexeme ++ after)) = text.toList ∧
    byteSize passed = first ∧ byteSize (passed ++ (blanks ++ lexeme)) = last ∧
    (∀ b ∈ blanks, isBlank b) ∧ FullLexeme lexeme t after ∧
    Uncut (passed ++ blanks) (lexeme ++ after)

theorem tokens_rest_of_some {c d : Cursor} {t : Token} (h : c.next? = some (t, d)) :
    tokens c.rest = t :: tokens d.rest := by
  obtain ⟨r, hr, hrd⟩ := Option.map_eq_some_iff.mp h
  cases hrd
  exact tokens_of_some hr

theorem tokens_rest_of_none {c : Cursor} (h : c.next? = none) : tokens c.rest = [] :=
  tokens_of_none (Option.map_eq_none_iff.mp h)

theorem next_of_some {c d : Cursor} {t : Token} (h : c.next? = some (t, d)) : c.next = (t, d) := by
  rw [next, h]
  rfl

theorem next_of_none {c : Cursor} (h : c.next? = none) : c.next = (.endMark, c.atEnd) := by
  rw [next, h]
  rfl

/-- A call that gives a token passes blanks and the lexeme. -/
theorem Splits.next {text : String} {passed : List Char} {c d : Cursor} {t : Token}
    (h : Splits text passed c) (hnext : c.next? = some (t, d)) :
    (∃ piece, Splits text (passed ++ piece) d) ∧ c.position < d.position ∧
      Passes text c.position t d.position := by
  obtain ⟨r, hr, hrd⟩ := Option.map_eq_some_iff.mp hnext
  cases hrd
  have htiles : passed ++ (r.blanks ++ (r.lexeme ++ r.rest)) = text.toList := by
    rw [read?_tiles hr, h.tiles]
  have hne := read?_lexeme_ne_nil hr
  have hfull := fullLexeme_of_read? hr
  have hblanks := isBlank_of_read? hr
  have hposition : byteSize (passed ++ (r.blanks ++ r.lexeme)) =
      c.position + byteSize r.blanks + byteSize r.lexeme := by
    rw [byteSize_append, byteSize_append, h.position, Nat.add_assoc]
  refine ⟨⟨r.blanks ++ r.lexeme, ?_, hposition.symm, ?_⟩, ?_, ?_⟩
  · simpa using htiles
  · rw [← List.append_assoc]
    exact hfull.uncut.append hne _
  · have := byteSize_pos hne
    dsimp only
    omega
  · refine ⟨passed, r.blanks, r.lexeme, r.rest, htiles, h.position.symm, hposition, hblanks,
      hfull, ?_⟩
    have huncut := h.uncut
    rw [← read?_tiles hr] at huncut
    exact huncut.blanks hblanks

/-- Where no token is left, only blanks lie ahead. -/
theorem Splits.atEnd {text : String} {passed : List Char} {c : Cursor} (h : Splits text passed c)
    (hnext : c.next? = none) : Splits text text.toList c.atEnd ∧ ∀ b ∈ c.rest, isBlank b := by
  refine ⟨⟨by simp [Cursor.atEnd], ?_, nofun⟩, ?_⟩
  · rw [Cursor.atEnd, h.position, ← byteSize_append, h.tiles]
  · exact List.dropWhile_eq_nil_iff.mp (read?_eq_none_iff.mp (Option.map_eq_none_iff.mp hnext))

/-! ## All calls -/

/-- The cursor behind `n` calls. -/
def skip (c : Cursor) (n : Nat) : Cursor := (fun c : Cursor => c.next.2)^[n] c

theorem skip_succ (c : Cursor) (n : Nat) : c.skip (n + 1) = (c.skip n).next.2 :=
  Function.iterate_succ_apply' _ n c

/-- As long as there are tokens, each call takes one. -/
theorem splits_skip (text : String) {n : Nat} (hn : n ≤ (tokens text.toList).length) :
    (∃ passed, Splits text passed ((start text).skip n)) ∧
      tokens ((start text).skip n).rest = (tokens text.toList).drop n := by
  induction n with
  | zero => exact ⟨⟨[], splits_start text⟩, rfl⟩
  | succ n ih =>
    obtain ⟨⟨passed, hsplits⟩, htokens⟩ := ih (by omega)
    rw [List.drop_eq_getElem_cons hn] at htokens
    rw [skip_succ]
    cases hnext : ((start text).skip n).next? with
    | none =>
      rw [tokens_rest_of_none hnext] at htokens
      cases htokens
    | some p =>
      obtain ⟨⟨piece, hsplits'⟩, -⟩ := hsplits.next hnext
      rw [tokens_rest_of_some hnext] at htokens
      rw [next_of_some hnext]
      exact ⟨⟨_, hsplits'⟩, (List.cons.inj htokens).2⟩

/-- Call `i` gives token `i`. -/
theorem next?_skip (text : String) {i : Nat} (hi : i < (tokens text.toList).length) :
    ((start text).skip i).next? = some ((tokens text.toList)[i], (start text).skip (i + 1)) := by
  obtain ⟨-, htokens⟩ := splits_skip text (Nat.le_of_lt hi)
  rw [List.drop_eq_getElem_cons hi] at htokens
  cases hnext : ((start text).skip i).next? with
  | none =>
    rw [tokens_rest_of_none hnext] at htokens
    cases htokens
  | some p =>
    rw [tokens_rest_of_some hnext] at htokens
    rw [skip_succ, next_of_some hnext, ← (List.cons.inj htokens).1]

/-- Behind the last token the cursor finds none. -/
theorem next?_skip_length (text : String) :
    ((start text).skip (tokens text.toList).length).next? = none := by
  obtain ⟨-, htokens⟩ := splits_skip text (Nat.le_refl _)
  rw [List.drop_length] at htokens
  cases hnext : ((start text).skip (tokens text.toList).length).next? with
  | none => rfl
  | some p =>
    rw [tokens_rest_of_some hnext] at htokens
    cases htokens

/-- Where no token is left, every call gives the mark of the end and leaves the cursor there. -/
theorem next_skip_of_none {c : Cursor} (h : c.next? = none) (i : Nat) :
    (c.skip i).next = (.endMark, c.atEnd) := by
  induction i with
  | zero => exact next_of_none h
  | succ i ih => rw [skip_succ, ih, next_atEnd]

theorem next_skip_of_le (text : String) {i : Nat} (hi : (tokens text.toList).length ≤ i) :
    ((start text).skip i).next =
      (.endMark, ((start text).skip (tokens text.toList).length).atEnd) := by
  obtain ⟨k, rfl⟩ := Nat.exists_eq_add_of_le' hi
  rw [skip, Function.iterate_add_apply]
  exact next_skip_of_none (next?_skip_length text) k

/-- Behind any number of calls the cursor splits the text. -/
theorem exists_splits_skip (text : String) (i : Nat) :
    ∃ passed, Splits text passed ((start text).skip i) := by
  by_cases hi : i ≤ (tokens text.toList).length
  · exact (splits_skip text hi).1
  · obtain ⟨k, rfl⟩ : ∃ k, i = k + 1 := ⟨i - 1, by omega⟩
    obtain ⟨⟨passed, hsplits⟩, -⟩ := splits_skip text (Nat.le_refl _)
    rw [skip_succ, next_skip_of_le text (by omega)]
    exact ⟨_, (hsplits.atEnd (next?_skip_length text)).1⟩

/-- The readings of a cursor are what its calls give. -/
theorem readings_eq_map (c : Cursor) (marks : Nat) :
    c.readings marks = (List.range ((tokens c.rest).length + marks)).map fun i =>
      ((c.skip i).next.1, (c.skip (i + 1)).position) := by
  induction hn : c.rest.length using Nat.strongRecOn generalizing c with
  | ind n ih =>
    rw [readings]
    split
    · next hnext =>
      have hcalls : ∀ i, ((c.skip i).next.1, (c.skip (i + 1)).position) =
          (Token.endMark, c.atEnd.position) := by
        intro i
        rw [skip_succ, next_skip_of_none hnext]
      rw [tokens_rest_of_none hnext, List.length_nil, Nat.zero_add]
      simp only [hcalls, List.map_const', List.length_range]
    · next t d hnext =>
      have hskip : ∀ i, c.skip (i + 1) = d.skip i := by
        intro i
        rw [skip, Function.iterate_succ_apply, next_of_some hnext]
        rfl
      rw [ih _ (hn ▸ next?_rest_lt hnext) d rfl, tokens_rest_of_some hnext, List.length_cons,
        Nat.add_right_comm, List.range_succ_eq_map, List.map_cons, List.map_map]
      simp only [Function.comp_def, hskip, Nat.succ_eq_add_one]
      rw [show c.skip 0 = c from rfl, next_of_some hnext]
      rfl

end Cursor

/-- The token that a cursor gives at call `i`, from the beginning of the text. -/
def tokenAt (text : String) (i : Nat) : Token := ((Cursor.start text).skip i).next.1

/-- The position of a cursor in the text behind `i` calls. -/
def positionAfter (text : String) (i : Nat) : Nat := ((Cursor.start text).skip i).position

/-- **A cursor tiles its text.** Its position starts at zero and always stands between two
characters. The calls give the tokens of the text one by one, and each of them passes blanks and the
whole lexeme of its token and nothing else. Behind the last token only blanks are left; from then on
every call gives the mark of the end, at the end of the text. -/
theorem calls_tile (text : String) :
    positionAfter text 0 = 0 ∧
    (∀ i, String.Pos.Raw.IsValid text ⟨positionAfter text i⟩ ∧
      positionAfter text i ≤ text.utf8ByteSize) ∧
    (∀ i (hi : i < (tokens text.toList).length),
      tokenAt text i = (tokens text.toList)[i] ∧ tokenAt text i ≠ .endMark ∧
      positionAfter text i < positionAfter text (i + 1) ∧
      Cursor.Passes text (positionAfter text i) (tokenAt text i) (positionAfter text (i + 1))) ∧
    (∃ passed blanks, passed ++ blanks = text.toList ∧
      byteSize passed = positionAfter text (tokens text.toList).length ∧
      ∀ b ∈ blanks, isBlank b) ∧
    (∀ i ≥ (tokens text.toList).length,
      tokenAt text i = .endMark ∧ positionAfter text (i + 1) = text.utf8ByteSize) ∧
    ∀ marks, (Cursor.start text).readings marks =
      (List.range ((tokens text.toList).length + marks)).map fun i =>
        (tokenAt text i, positionAfter text (i + 1)) := by
  obtain ⟨⟨passed, hlast⟩, -⟩ := Cursor.splits_skip text (Nat.le_refl _)
  obtain ⟨hend, hblanks⟩ := hlast.atEnd (Cursor.next?_skip_length text)
  refine ⟨rfl, ?_, ?_, ?_, ?_, Cursor.readings_eq_map _⟩
  · intro i
    obtain ⟨passed, hsplits⟩ := Cursor.exists_splits_skip text i
    exact ⟨hsplits.isValid, hsplits.position_le⟩
  · intro i hi
    obtain ⟨⟨passed, hsplits⟩, -⟩ := Cursor.splits_skip text (Nat.le_of_lt hi)
    have hnext := Cursor.next?_skip text hi
    have htoken : tokenAt text i = (tokens text.toList)[i] := by
      rw [tokenAt, Cursor.next_of_some hnext]
    obtain ⟨-, hposition, hpasses⟩ := hsplits.next hnext
    rw [← htoken] at hpasses
    refine ⟨htoken, ?_, hposition, hpasses⟩
    rw [htoken]
    exact fun hmark => endMark_notMem_tokens text.toList (hmark ▸ List.getElem_mem hi)
  · exact ⟨passed, _, hlast.tiles, hlast.position.symm, hblanks⟩
  · intro i hi
    rw [tokenAt, positionAfter, Cursor.skip_succ, Cursor.next_skip_of_le text hi, hend.position,
      byteSize_toList]
    exact ⟨rfl, rfl⟩

/-! A character of two bytes, a percentage behind a second point, and a blank at the end. -/

example : (Cursor.start "π1.2.3% ").readings 2 =
    [(.invalid 'π', 2), (.number (1.2 / 100), 8), (.endMark, 9), (.endMark, 9)] := by
  decide +kernel

end PocketCalc.Token
