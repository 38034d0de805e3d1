import WvStreams.Strings.TclForms

/-!
# Words in a text that arrives in parts

A word that is found before the end of a text is found as well when more text is there
(`wvtclGetword_more`), and in a text of lines every word that is found ends before the end
(`wvtclGetword_lined`), so that the lines can be given to the scanner one by one.
-/

namespace WvStreams

open List

/-- Nothing, or text that ends in a newline. -/
def Lined (s : Str) : Prop := s = [] ∨ s.getLast? = some newline

theorem Lined.suffix {s t : Str} (h : Lined (s ++ t)) : Lined t := by
  by_cases ht : t = []
  · exact Or.inl ht
  · rcases h with h | h
    · exact absurd (append_eq_nil_iff.mp h).2 ht
    · rw [getLast?_append_of_ne_nil s ht] at h
      exact Or.inr h

theorem lined_concat (s : Str) : Lined (s ++ [newline]) := Or.inr getLast?_concat

section Scanner

variable {splitchars : WvStringMask}

variable {s : Str}

theorem wordLoop_more {st : WordState} (h : (wordLoop splitchars st s).2.1 ≠ []) (t : Str) :
    wordLoop splitchars st (s ++ t) =
      ((wordLoop splitchars st s).1, (wordLoop splitchars st s).2.1 ++ t,
        (wordLoop splitchars st s).2.2) := by
  induction s generalizing st with
  | nil => exact absurd rfl h
  | cons ch s ih =>
    rcases wordLoop_step splitchars st ch with ⟨st', hgo, -, -⟩ | ⟨-, hquote⟩ | hsplit
    · rw [hgo] at h
      rw [cons_append, hgo, hgo, ih h]
      rfl
    · rw [cons_append, hquote, hquote]
    · rw [cons_append, hsplit, hsplit]
      rfl

theorem wordLoop_line {st : WordState} (hnl : splitchars.set newline = true)
    (hs : s.getLast? = some newline) (h : (wordLoop splitchars st s).2.1 = []) (word : Str) :
    unfinished word (wordLoop splitchars st s).2.2 = true := by
  induction s generalizing st with
  | nil => cases hs
  | cons ch s ih =>
    rcases wordLoop_step splitchars st ch with ⟨st', hgo, -, hopen⟩ | ⟨hch, hquote⟩ | hsplit
    · rw [hgo] at h ⊢
      cases s with
      | nil => exact hopen hnl (Option.some.inj hs) word
      | cons d s =>
        rw [getLast?_cons_cons] at hs
        exact ih hs h
    · rw [hquote] at h
      obtain rfl : s = [] := h
      rw [hch] at hs
      exact absurd (Option.some.inj hs) (by decide)
    · rw [hsplit] at h
      cases h

theorem wordScan_more {c : Byte} (h : (wordScan splitchars c s).2.1 ≠ []) (t : Str) :
    wordScan splitchars c (s ++ t) =
      ((wordScan splitchars c s).1, (wordScan splitchars c s).2.1 ++ t,
        (wordScan splitchars c s).2.2) := by
  unfold wordScan at h ⊢
  split
  · rename_i hquote
    rw [if_pos hquote] at h
    rw [wordLoop_more h]
    rfl
  · rename_i hquote
    rw [if_neg hquote] at h
    exact wordLoop_more h t

theorem wvtclGetword_more {doUnescape : Bool} {word rest : Str}
    (h : wvtclGetword splitchars doUnescape s = some (word, rest)) (hrest : rest ≠ []) (t : Str) :
    wvtclGetword splitchars doUnescape (s ++ t) = some (word, rest ++ t) := by
  unfold wvtclGetword at h ⊢
  rw [dropWhile_append]
  cases hs : s.dropWhile splitchars.set with
  | nil =>
    rw [hs] at h
    cases h
  | cons c u =>
    rw [hs] at h
    dsimp only [isEmpty_cons] at h ⊢
    rw [if_neg Bool.false_ne_true]
    split at h
    · cases h
    · rename_i hfound
      obtain ⟨w, hw, heq⟩ := Option.map_eq_some_iff.mp h
      obtain ⟨rfl, rfl⟩ := Prod.mk.inj heq
      have hmore := wordScan_more hrest t
      have hcons : c :: u ++ t = c :: (u ++ t) := rfl
      rw [hcons]
      dsimp only
      rw [hmore]
      rw [if_neg hfound, hw]
      rfl

theorem wvtclGetword_lined {doUnescape : Bool} (hnl : splitchars.set newline = true)
    {word rest : Str} (h : wvtclGetword splitchars doUnescape s = some (word, rest))
    (hs : Lined s) : rest ≠ [] ∧ Lined rest := by
  unfold wvtclGetword at h
  cases hdrop : s.dropWhile splitchars.set with
  | nil =>
    rw [hdrop] at h
    cases h
  | cons c u =>
    have hcu : Lined (c :: u) := by
      have happ := takeWhile_append_dropWhile (p := splitchars.set) (l := s)
      rw [hdrop] at happ
      rw [← happ] at hs
      exact hs.suffix
    have hlast : (c :: u).getLast? = some newline := hcu.resolve_left (cons_ne_nil c u)
    rw [hdrop] at h
    dsimp only at h
    split at h
    · cases h
    · rename_i hfound
      obtain ⟨w, hw, heq⟩ := Option.map_eq_some_iff.mp h
      obtain ⟨rfl, rfl⟩ := Prod.mk.inj heq
      have happ := wordScan_append splitchars c u
      refine ⟨?_, ?_⟩
      · intro hnil
        apply hfound
        unfold wordScan at hnil ⊢
        split
        · -- within quotes the word is unfinished in any case
          have hinquote := wordLoop_inquote splitchars { inquote := true } u
          simp only [prependWord, unfinished, hinquote]
          simp
        · rename_i hquote
          rw [if_neg hquote] at hnil
          exact wordLoop_line hnl hlast hnil _
      · rw [← happ] at hcu
        exact hcu.suffix

end Scanner

theorem newline_splits : wvtclNastyNewlines.set newline = true := by decide

/-- The scanner passes the text if there is more behind it. -/
def Passes (splitchars : WvStringMask) (p : Str) : Prop :=
  ∀ t, t ≠ [] → wordLoop splitchars {} (p ++ t) = prependWord p (wordLoop splitchars {} t)

variable {splitchars : WvStringMask}

theorem Passes.append {p q : Str} (hp : Passes splitchars p)
    (hq : Passes splitchars q) : Passes splitchars (p ++ q) := by
  intro t ht
  have hqt : q ++ t ≠ [] := by simp [ht]
  rw [append_assoc, hp _ hqt, hq t ht, prependWord_prependWord]

theorem passes_plain {p : Str} (h : ∀ c ∈ p, nasty splitchars c = false) : Passes splitchars p := by
  intro t _
  have hpass := wordLoop_backslashed splitchars (.plain p)
    (fun c hc _ => by
      obtain ⟨d, hd, rfl⟩ := mem_map.mp hc
      exact inWord_of_not_nasty splitchars (h d hd)) false t
  rw [Spelling.plain_text, Spelling.plain_not_continued, ite_self] at hpass
  exact hpass

theorem passes_written (w : Written splitchars)
    (hq : w.form.isQuoted = false) : Passes splitchars w.form.text := by
  intro t ht
  obtain ⟨c, t, rfl⟩ := exists_cons_of_ne_nil ht
  rw [(w.passed hq).scan, wordLoop_incontinuation]

theorem wvtclGetword_passes {lead : Str}
    (hlead : ∀ c ∈ lead, splitchars.set c = true) {p : Str} (hne : p ≠ [])
    (hhead : ∀ c ∈ p.head?, splitchars.set c = false ∧ c ≠ quote) (hp : Passes splitchars p)
    {f : Byte} (hf : splitchars.set f = true) (hb : f ≠ backslash) (t : Str) :
    wvtclGetword splitchars false (lead ++ (p ++ f :: t)) = some (p, f :: t) := by
  obtain ⟨c, q, rfl⟩ := exists_cons_of_ne_nil hne
  obtain ⟨hc, hquote⟩ := hhead c rfl
  have hpass := hp (f :: t) (cons_ne_nil f t)
  rw [wordLoop_split splitchars hf hb, cons_append] at hpass
  rw [cons_append, wvtclGetword_scan false hlead hc, wordScan, if_neg hquote, hpass]
  simp [prependWord, unfinished]

theorem wvtclGetword_splits {doUnescape : Bool} {s : Str}
    (h : ∀ c ∈ s, splitchars.set c = true) : wvtclGetword splitchars doUnescape s = none := by
  rw [wvtclGetword, dropWhile_eq_nil_iff.mpr h]

end WvStreams
