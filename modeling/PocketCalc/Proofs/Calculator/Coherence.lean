import Mathlib.Data.List.Induction
import PocketCalc.Proofs.Calculator.Run

/-!
# What is shown is what was evaluated

The message, the display and the explanation of a calculator tell of the evaluation they come from,
whatever keys were pressed before: a message of an evaluation that has just failed, on the entry
that is still there, and an explanation of the last evaluation, if it succeeded and nothing was
cleared since (`coherent_run`).
-/

namespace PocketCalc

namespace Calculator

variable [Elementary]

/-- The calculator `c` shows what pressing `keys` evaluated. -/
structure Coherent (keys : List Key) (c : Calculator) : Prop where
  /-- There is a message exactly if the last key was an evaluation that failed. -/
  message_iff : c.message ≠ "" ↔
    ∃ before e, keys = before ++ [.equals] ∧ evaluate (initial.run before).entry = .error e
  /-- A message is that of the entry, which is still there, and nothing is explained with it. -/
  failed : c.message ≠ "" → ∃ e, evaluate c.entry = .error e ∧ c.message = e.message ∧
    c.explanation = ⟨"", "", ""⟩ ∧ c.justEvaluated = true ∧ c.display = "Erreur"
  /-- What is explained is the last evaluation. -/
  explained : c.explanation = ⟨"", "", ""⟩ ∨ ∃ before after,
    keys = before ++ .equals :: after ∧ .equals ∉ after ∧ .clear ∉ after ∧
      Working.ofText (initial.run before).entry = .ok c.explanation
  /-- A success is explained until the next evaluation or until the calculator is cleared. -/
  kept : ∀ before after w, keys = before ++ .equals :: after → .equals ∉ after → .clear ∉ after →
    Working.ofText (initial.run before).entry = .ok w → c.explanation = w
  /-- A result is the entry, the end of the explanation and the display. -/
  succeeded : ∀ before v, keys = before ++ [.equals] →
    evaluate (initial.run before).entry = .ok v →
      c.entry = Decimal.display v ∧ c.explanation.result = Decimal.display v ∧ c.message = "" ∧
        c.display = Decimal.display v

/-! ## The parts of coherence -/

theorem message_press_iff (c : Calculator) (k : Key) :
    (c.press k).message ≠ "" ↔ k = .equals ∧ ∃ e, evaluate c.entry = .error e := by
  rw [ne_eq, message_eq_empty_iff]
  by_cases hk : k = .equals
  · subst hk
    have hpress : c.press .equals = c.equals := rfl
    rw [hpress]
    cases h : evaluate c.entry with
    | ok v =>
      obtain ⟨w, hw⟩ := equals_of_ok h
      simp [hw]
    | error e => simp [equals_of_error h]
  · simp [failure_press c hk, hk]

theorem message_run_iff (keys : List Key) : (initial.run keys).message ≠ "" ↔
    ∃ before e, keys = before ++ [.equals] ∧ evaluate (initial.run before).entry = .error e := by
  rcases List.eq_nil_or_concat' keys with rfl | ⟨before, k, rfl⟩
  · have hinitial : (initial.run []).message = "" := rfl
    simp [hinitial]
  · rw [run_concat, message_press_iff]
    constructor
    · rintro ⟨rfl, e, he⟩
      exact ⟨before, e, rfl, he⟩
    · rintro ⟨before', e, heq, he⟩
      obtain ⟨rfl, hk⟩ := List.append_inj' heq rfl
      exact ⟨List.singleton_inj.mp hk, e, he⟩

/-- The stages that are explained are kept by every key but the two that change them. -/
theorem working_run (c : Calculator) {keys : List Key} (hequals : .equals ∉ keys)
    (hclear : .clear ∉ keys) : (c.run keys).working = c.working := by
  induction keys using List.reverseRecOn with
  | nil => rfl
  | append_singleton keys k ih =>
    simp only [List.mem_append, List.mem_singleton, not_or] at hequals hclear
    rw [run_concat, working_press _ (Ne.symm hequals.2) (Ne.symm hclear.2),
      ih hequals.1 hclear.1]

/-- After a success, its stages are explained until the next evaluation or clearing. -/
theorem working_run_of_stages {before after : List Key} {w : Working}
    (hequals : .equals ∉ after) (hclear : .clear ∉ after)
    (hw : Working.ofText (initial.run before).entry = .ok w) :
    (initial.run (before ++ .equals :: after)).working = some w := by
  have hpress : (initial.run before).press .equals = (initial.run before).equals := rfl
  rw [List.append_cons, run_append, run_concat, working_run _ hequals hclear, hpress,
    equals_of_stages hw]

/-- Stages that are explained come from the last evaluation. -/
theorem exists_of_working_run {keys : List Key} {w : Working}
    (h : (initial.run keys).working = some w) : ∃ before after,
      keys = before ++ .equals :: after ∧ .equals ∉ after ∧ .clear ∉ after ∧
        Working.ofText (initial.run before).entry = .ok w := by
  induction keys using List.reverseRecOn with
  | nil => cases h
  | append_singleton keys k ih =>
    rw [run_concat] at h
    by_cases hequals : k = .equals
    · subst hequals
      have hpress : (initial.run keys).press .equals = (initial.run keys).equals := rfl
      rw [hpress] at h
      cases hw : Working.ofText (initial.run keys).entry with
      | error e =>
        unfold equals at h
        rw [hw] at h
        cases h
      | ok w' =>
        rw [equals_of_stages hw] at h
        cases h
        exact ⟨keys, [], rfl, List.not_mem_nil, List.not_mem_nil, hw⟩
    · have hclear : k ≠ .clear := by
        rintro rfl
        cases h
      -- the same evaluation as before, one key further back
      rw [working_press _ hequals hclear] at h
      obtain ⟨before, after, rfl, hafter, hafter', hw⟩ := ih h
      exact ⟨before, after ++ [k], by simp, by simp [hafter, Ne.symm hequals],
        by simp [hafter', Ne.symm hclear], hw⟩

/-- **Coherence.** Whatever keys were pressed, the calculator shows what they evaluated. -/
theorem coherent_run (keys : List Key) : Coherent keys (initial.run keys) where
  message_iff := message_run_iff keys
  failed := by
    intro h
    obtain ⟨before, e, rfl, he⟩ := (message_run_iff keys).mp h
    have hequals : initial.run (before ++ [.equals]) =
        ⟨(initial.run before).entry, some e, none, true⟩ := by
      rw [run_concat]
      exact equals_of_error he
    rw [hequals]
    exact ⟨e, he, rfl, rfl, rfl, rfl⟩
  explained := by
    cases h : (initial.run keys).working with
    | none => exact .inl (by rw [explanation, h]; rfl)
    | some w =>
      have hw : (initial.run keys).explanation = w := by rw [explanation, h]; rfl
      rw [hw]
      exact .inr (exists_of_working_run h)
  kept := by
    rintro before after w rfl hequals hclear hw
    rw [explanation, working_run_of_stages hequals hclear hw]
    rfl
  succeeded := by
    rintro before v rfl hv
    obtain ⟨w, hw, hresult⟩ := Working.ofText_of_ok hv
    have hequals : initial.run (before ++ [.equals]) = ⟨w.result, none, some w, true⟩ := by
      rw [run_concat]
      exact equals_of_stages hw
    have hdisplay := display_of_entry (c := ⟨w.result, none, some w, true⟩) rfl
      (by simpa only [hresult] using Decimal.display_ne_empty v)
    rw [hequals]
    exact ⟨hresult, hresult, rfl, hdisplay.trans hresult⟩

end Calculator

end PocketCalc
