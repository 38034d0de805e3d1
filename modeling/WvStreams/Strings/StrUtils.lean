import Mathlib.Data.List.DropRight
import WvStreams.Strings.WvString

/-!
# String utilities

`trimString` takes the blanks off both ends of a string.
-/

namespace WvStreams

open List

/-- `isspace` in the C locale. -/
def isspace (c : Byte) : Bool := c == 32 || (9 ≤ c && c ≤ 13)

/-- What `trim_string` leaves in its argument: no blanks at the end. -/
def trimEnd (s : Str) : Str := s.rdropWhile isspace

/-- What `trim_string` returns. -/
def trimString (s : Str) : Str := (trimEnd s).dropWhile isspace

/-- There are no blanks at the ends. -/
structure Trimmed (s : Str) : Prop where
  head : ∀ c ∈ s.head?, isspace c = false
  last : ∀ c ∈ s.getLast?, isspace c = false

instance (s : Str) : Decidable (Trimmed s) :=
  decidable_of_iff
    ((∀ c ∈ s.head?, isspace c = false) ∧ ∀ c ∈ s.getLast?, isspace c = false)
    ⟨fun h => ⟨h.1, h.2⟩, fun h => ⟨h.head, h.last⟩⟩

variable {s : Str}

theorem trimEnd_eq_self (h : ∀ c ∈ s.getLast?, isspace c = false) : trimEnd s = s := by
  rw [trimEnd, rdropWhile_eq_self_iff]
  intro hs
  have hlast := h (s.getLast hs) (getLast?_eq_getLast_of_ne_nil hs)
  simp [hlast]

theorem dropWhile_isspace (h : ∀ c ∈ s.head?, isspace c = false) : s.dropWhile isspace = s := by
  cases s with
  | nil => rfl
  | cons c s => exact dropWhile_cons_of_neg (by simp [h c rfl])

theorem Trimmed.trimString (h : Trimmed s) : trimString s = s := by
  rw [WvStreams.trimString, trimEnd_eq_self h.last, dropWhile_isspace h.head]

theorem Trimmed.trimString_space (h : Trimmed s) : WvStreams.trimString (s ++ [32]) = s := by
  have hdrop : trimEnd (s ++ [32]) = trimEnd s := rdropWhile_concat_pos _ _ _ (by decide)
  rw [WvStreams.trimString, hdrop]
  exact h.trimString

theorem Trimmed.trimString_cons_space (h : Trimmed s) (hne : s ≠ []) :
    WvStreams.trimString (32 :: s) = s := by
  have hlast : ∀ c ∈ (32 :: s).getLast?, isspace c = false := by
    intro c hc
    obtain ⟨d, s, rfl⟩ := exists_cons_of_ne_nil hne
    rw [getLast?_cons_cons] at hc
    exact h.last c hc
  rw [WvStreams.trimString, trimEnd_eq_self hlast,
    dropWhile_cons_of_pos (by decide), dropWhile_isspace h.head]

theorem trimString_cr (l : Str) : trimString (l ++ [13]) = trimString l := by
  rw [trimString, trimString, trimEnd, rdropWhile_concat_pos _ _ _ (by decide), trimEnd]

theorem trimEnd_append {a : Str} (hlast : ∀ c ∈ a.getLast?, isspace c = false) (w : Str) :
    trimEnd (a ++ w) = a ++ trimEnd w := by
  induction w using reverseRecOn with
  | nil => rw [append_nil, trimEnd_eq_self hlast, trimEnd, rdropWhile_nil, append_nil]
  | append_singleton w c ih =>
    rw [← append_assoc]
    by_cases hc : isspace c = true
    · rw [trimEnd, rdropWhile_concat_pos _ _ _ hc, trimEnd, rdropWhile_concat_pos _ _ _ hc]
      exact ih
    · rw [trimEnd, rdropWhile_concat_neg _ _ _ hc, trimEnd,
        rdropWhile_concat_neg _ _ _ hc, append_assoc]

theorem trimString_append {a : Str} (hne : a ≠ []) (htrimmed : Trimmed a) (w : Str) :
    trimString (a ++ w) = a ++ trimEnd w := by
  obtain ⟨c, a, rfl⟩ := exists_cons_of_ne_nil hne
  rw [trimString, trimEnd_append htrimmed.last]
  exact dropWhile_isspace fun d hd => htrimmed.head d hd

end WvStreams
