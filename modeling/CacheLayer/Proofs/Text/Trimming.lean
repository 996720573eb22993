import CacheLayer.Text.Blank
import Mathlib.Data.List.DropRight
/-!
# Trimmed texts

What is left of a text without the blanks at its ends stands in the text with nothing but blanks on
either side, and neither begins nor ends with one. There is only one such part.

## Key results

- `Text.trimmed_trimChars`: trimming leaves such a part
- `Text.Trimmed.trimChars_eq`: there is no other
-/

namespace CacheLayer.Text

/-- The text `core` is `cs` without the blanks at its ends. -/
structure Trimmed (cs core : List Char) : Prop where
  around : ∃ before after, cs = before ++ (core ++ after) ∧
    (∀ c ∈ before, isBlank c) ∧ ∀ c ∈ after, isBlank c
  first : ∀ h : core ≠ [], ¬ isBlank (core.head h)
  last : ∀ h : core ≠ [], ¬ isBlank (core.getLast h)

/-- Trimming leaves the text without the blanks at its ends. -/
theorem trimmed_trimChars (cs : List Char) : Trimmed cs (trimChars cs) := by
  have htrim : trimChars cs = (cs.dropWhile isBlank).rdropWhile isBlank := rfl
  rw [htrim]
  refine ⟨⟨cs.takeWhile isBlank, (cs.dropWhile isBlank).rtakeWhile isBlank, ?_, ?_, ?_⟩, ?_, ?_⟩
  · rw [List.rdropWhile_append_rtakeWhile, List.takeWhile_append_dropWhile]
  · exact fun c hc => List.mem_takeWhile_imp hc
  · exact fun c hc => List.mem_rtakeWhile_imp hc
  · -- What is dropped behind does not change how the text begins.
    intro h
    rw [(List.rdropWhile_prefix isBlank _).head h, Bool.not_eq_true]
    exact List.head_dropWhile_not isBlank _
  · exact List.rdropWhile_last_not isBlank _

/-- There is no other text without the blanks at its ends. -/
theorem Trimmed.trimChars_eq {cs core : List Char} (h : Trimmed cs core) : trimChars cs = core := by
  obtain ⟨⟨before, after, rfl, hbefore, hafter⟩, hfirst, hlast⟩ := h
  have hfront : (before ++ (core ++ after)).dropWhile isBlank = (core ++ after).dropWhile isBlank :=
    List.dropWhile_append_of_pos hbefore
  rw [trimChars, hfront]
  cases core with
  | nil =>
    -- There is nothing but blanks.
    rw [List.nil_append, List.dropWhile_eq_nil_iff.2 hafter]
    rfl
  | cons c core =>
    have hhead : ¬ isBlank c := hfirst (List.cons_ne_nil c core)
    have hback : (c :: core).reverse.dropWhile isBlank = (c :: core).reverse :=
      List.reverse_eq_iff.1 (List.rdropWhile_eq_self_iff.2 hlast)
    have hblank : ∀ c ∈ after.reverse, isBlank c := fun c hc => hafter c (List.mem_reverse.1 hc)
    rw [List.cons_append, List.dropWhile_cons_of_neg hhead, ← List.cons_append,
      List.reverse_append, List.dropWhile_append_of_pos hblank, hback, List.reverse_reverse]

theorem trimmed_iff {cs core : List Char} : Trimmed cs core ↔ trimChars cs = core := by
  constructor
  · exact Trimmed.trimChars_eq
  · rintro rfl
    exact trimmed_trimChars cs

/-- A text without blanks is trimmed. -/
theorem Trimmed.refl {cs : List Char} (h : ∀ c ∈ cs, isBlank c = false) : Trimmed cs cs where
  around := ⟨[], [], by simp⟩
  first hne := by simp [h _ (List.head_mem hne)]
  last hne := by simp [h _ (List.getLast_mem hne)]

end CacheLayer.Text
