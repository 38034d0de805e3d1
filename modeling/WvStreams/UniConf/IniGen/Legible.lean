import WvStreams.UniConf.IniGen.Refresh
import WvStreams.UniConf.IniGen.Save

/-!
# Legible strings

A section name, a key or a value is `Legible` if the text that `save` writes for it stands for
it within a line of the file (`Stands`).
-/

namespace WvStreams

open Lib UniConfKey List

namespace UniIniGen

/-- Text without backslashes whose braces are all closed at the end and that has none of the
characters `stops` outside braces. A closing brace too many does not count. -/
def settles (stops : Byte → Bool) (numbraces : Nat) : Str → Bool
  | [] => numbraces == 0
  | c :: s =>
    if numbraces = 0 ∧ stops c then false
    else
      settles stops
        (if c = lbrace then numbraces + 1 else if c = rbrace then numbraces - 1 else numbraces) s

/-- A string that is escaped has a nasty character if its braces match. Otherwise it does not
end in a blank, nor begin with one unless that is nasty. A string that is written as it is has
no backslash, is not all in braces or quotes, does not end in a blank, and settles. -/
def Legible (place : Place) (stops : Byte → Bool) (s : Str) : Prop :=
  if absolutelyNeedsEscape s place.sepchars then
    if braces false 0 s then ∃ c ∈ s, nasty place.nasties c = true
    else (∀ c ∈ s.head?, isspace c = true → nasty place.nasties c = true) ∧
      ∀ c ∈ s.getLast?, isspace c = false
  else
    backslash ∉ s ∧ ¬ (s.head? = some lbrace ∧ s.getLast? = some rbrace) ∧
      ¬ (s.head? = some quote ∧ s.getLast? = some quote) ∧
      (∀ c ∈ s.getLast?, isspace c = false) ∧ settles stops 0 s = true

def lineStops (c : Byte) : Bool := wvtclNastyNewlines.set c

def keyStops (c : Byte) : Bool := lineStops c || c == 61

theorem lineStops_cases {c : Byte} (h : lineStops c = true) : c = 10 ∨ c = 13 := by
  simpa [lineStops, wvtclNastyNewlines, WvStringMask.ofString] using h

theorem keyStops_nasty (c : Byte) (h : keyStops c = true) : keyPlace.nasties.set c = true := by
  have hc : c = 10 ∨ c = 13 ∨ c = 61 := by
    rw [← or_assoc]
    simpa [keyStops, lineStops, wvtclNastyNewlines, WvStringMask.ofString] using h
  rcases hc with rfl | rfl | rfl <;> decide

theorem sectionStops_nasty (c : Byte) (h : lineStops c = true) :
    sectionPlace.nasties.set c = true := by
  rcases lineStops_cases h with rfl | rfl <;> decide

theorem valueStops_nasty (c : Byte) (h : lineStops c = true) : valuePlace.nasties.set c = true := by
  rcases lineStops_cases h with rfl | rfl <;> decide

variable {s : Str} {stops : Byte → Bool}

theorem wordLoop_settles {splitchars : WvStringMask}
    (hstops : ∀ c, splitchars.set c = true → stops c = true) {n : Nat} (hb : backslash ∉ s)
    (hs : settles stops n s = true) (b : Bool) {t : Str} (ht : t ≠ []) :
    wordLoop splitchars ⟨false, false, b, n⟩ (s ++ t) =
      prependWord s (wordLoop splitchars {} t) := by
  induction s generalizing n b with
  | nil =>
    obtain rfl : n = 0 := by simpa [settles] using hs
    obtain ⟨c, t, rfl⟩ := exists_cons_of_ne_nil ht
    rfl
  | cons c s ih =>
    obtain ⟨hc, hb⟩ := not_or.mp fun h => hb (mem_cons.mpr h)
    rw [settles] at hs
    split at hs
    · cases hs
    · rename_i hstop
      have hgo : ¬ (n = 0 ∧ ¬ false = true ∧ splitchars.set c = true) := by
        rintro ⟨hn, -, hset⟩
        exact hstop ⟨hn, hstops c hset⟩
      rw [cons_append, wordLoop]
      dsimp only
      rw [if_neg Bool.false_ne_true, if_neg (Ne.symm hc), if_neg (by simp), if_neg hgo,
        if_neg Bool.false_ne_true, ih hb hs, prependWord_prependWord]
      rfl

/-- The text `p` stands for `s` within a line. -/
structure Stands (stops : Byte → Bool) (p s : Str) : Prop where
  ne_nil : p ≠ []
  passes : ∀ splitchars : WvStringMask, (∀ c, splitchars.set c = true → stops c = true) →
    Passes splitchars p
  trimmed : Trimmed p
  unescape : wvtclUnescape p = some s

theorem getLast?_text {cs : Spelling} (h : cs ≠ []) :
    (Spelling.text cs).getLast? = cs.getLast?.map Prod.snd := by
  obtain ⟨cs, ⟨escaped, c⟩, rfl⟩ := (eq_nil_or_concat cs).resolve_left h
  cases escaped <;> simp [Spelling.text]

theorem stands_escaped {place : Place} (hnasty : ∀ c, stops c = true → place.nasties.set c = true)
    (hl : stops lbrace = false) (hb : stops backslash = false) (hne : s ≠ [])
    (h : if braces false 0 s then ∃ c ∈ s, nasty place.nasties c = true
      else (∀ c ∈ s.head?, isspace c = true → nasty place.nasties c = true) ∧
        ∀ c ∈ s.getLast?, isspace c = false) : Stands stops (wvtclEscapeStr place.nasties s) s := by
  have hwritten : ∀ splitchars : WvStringMask, (∀ c, splitchars.set c = true → stops c = true) →
      ∃ w : Written splitchars, w.form = escapeForm place.nasties s := by
    intro splitchars hstops
    have hfree : ∀ c, stops c = false → splitchars.set c = false := by
      intro c hc
      by_contra hset
      rw [hstops c (by simpa using hset)] at hc
      cases hc
    have hrec : Recognizable place.nasties splitchars s :=
      ⟨fun _ => hfree lbrace hl, fun _ _ => hfree backslash hb⟩
    exact ⟨escaped (fun c hc => hnasty c (hstops c hc)) hrec, rfl⟩
  have hquoted := escapeForm_isQuoted place.nasties s
  rw [wvtclEscapeStr_eq]
  obtain ⟨w, hw⟩ := hwritten ⟨fun _ => false, 0⟩ (by simp)
  constructor
  · rw [← hw]
    exact w.text_ne_nil
  · intro splitchars hstops
    obtain ⟨w, hw⟩ := hwritten splitchars hstops
    rw [← hw] at hquoted ⊢
    exact passes_written w hquoted
  · rw [escapeForm, if_neg hne]
    split
    · rename_i hbraces
      rw [if_pos hbraces] at h
      rw [if_neg]
      · constructor
        · intro c hc
          obtain rfl : lbrace = c := Option.some.inj hc
          decide
        · intro c hc
          have hlast : (lbrace :: s ++ [rbrace]).getLast? = some rbrace := getLast?_concat
          obtain rfl : rbrace = c := Option.some.inj (hlast.symm.trans hc)
          decide
      · intro hall
        obtain ⟨c, hc, hnasty⟩ := h
        rw [hall c hc] at hnasty
        cases hnasty
    · rename_i hbraces
      rw [if_neg hbraces] at h
      obtain ⟨hhead, hlast⟩ := h
      constructor
      · obtain ⟨d, s, rfl⟩ := exists_cons_of_ne_nil hne
        intro c hc
        cases hd : nasty place.nasties d with
        | true =>
          have hc' : some backslash = some c := by
            simpa [Form.text, Spelling.text, hd] using hc
          obtain rfl := Option.some.inj hc'
          decide
        | false =>
          have hc' : some d = some c := by simpa [Form.text, Spelling.text, hd] using hc
          obtain rfl := Option.some.inj hc'
          by_contra hspace
          rw [hhead d rfl (by simpa using hspace)] at hd
          cases hd
      · intro c hc
        rw [Form.text, getLast?_text (by simpa using hne), getLast?_map, Option.map_map] at hc
        apply hlast c
        have hid : (Prod.snd ∘ fun c => (nasty place.nasties c, c)) = id := rfl
        rw [hid, Option.map_id] at hc
        exact hc
  · rw [← hw] at hquoted ⊢
    rw [(w.passed hquoted).reads, hw, escapeForm_value]

theorem stands_write {place : Place} (hnasty : ∀ c, stops c = true → place.nasties.set c = true)
    (hl : stops lbrace = false) (hb : stops backslash = false) (hne : s ≠ [])
    (h : Legible place stops s) : Stands stops (write place s) s := by
  unfold Legible at h
  rw [write]
  split at h
  · rename_i hneeds
    rw [if_pos hneeds]
    exact stands_escaped hnasty hl hb hne h
  · rename_i hneeds
    rw [if_neg hneeds]
    obtain ⟨hback, hbraced, hquoted, hlast, hsettles⟩ := h
    refine ⟨hne, ?_, ⟨?_, hlast⟩, ?_⟩
    · intro splitchars hstops t ht
      exact wordLoop_settles hstops hback hsettles false ht
    · intro c hc
      by_contra hspace
      apply hneeds
      rw [absolutelyNeedsEscape, hc]
      simpa using Or.inl hspace
    · have hloop := unescapeLoop_bare (fun c hc e => hback (e ▸ hc) : ∀ c ∈ s, c ≠ backslash) []
      rw [append_nil, unescapeLoop, append_nil] at hloop
      rw [wvtclUnescape, if_neg hbraced, if_neg hquoted, hloop]

/-- A key as it is written: the name that it stands for is read as the key. -/
structure StandsForKey (p : Str) (key : UniConfKey) : Prop where
  head : ∀ c ∈ p.head?, c ∉ keyPlace.sepchars
  stands : ∃ name, Stands keyStops p name ∧ name ≠ [] ∧ UniConfKey.ofString name = key

theorem escapeForm_head {nasties : WvStringMask} (hne : s ≠ []) :
    ∀ c ∈ (escapeForm nasties s).text.head?,
      c = lbrace ∨ c = backslash ∨ nasty nasties c = false := by
  obtain ⟨d, s, rfl⟩ := exists_cons_of_ne_nil hne
  intro c hc
  rw [escapeForm, if_neg hne] at hc
  split at hc
  · split at hc
    · rename_i hall
      exact Or.inr (Or.inr (hall c (mem_of_head? hc)))
    · exact Or.inl (Option.some.inj hc).symm
  · cases hd : nasty nasties d with
    | true =>
      have hc' : some backslash = some c := by simpa [Form.text, Spelling.text, hd] using hc
      exact Or.inr (Or.inl (Option.some.inj hc').symm)
    | false =>
      have hc' : some d = some c := by simpa [Form.text, Spelling.text, hd] using hc
      obtain rfl := Option.some.inj hc'
      exact Or.inr (Or.inr hd)

theorem head_write_key (hne : s ≠ []) : ∀ c ∈ (write keyPlace s).head?, c ∉ keyPlace.sepchars := by
  have hnasty : ∀ c ∈ keyPlace.sepchars, nasty keyPlace.nasties c = true := by decide
  intro c hc hsep
  rw [write] at hc
  split at hc
  · rw [wvtclEscapeStr_eq] at hc
    rcases escapeForm_head hne c hc with rfl | rfl | hplain
    · exact absurd hsep (by decide)
    · exact absurd hsep (by decide)
    · rw [hnasty c hsep] at hplain
      cases hplain
  · rename_i hneeds
    obtain ⟨d, s, rfl⟩ := exists_cons_of_ne_nil hne
    obtain rfl := Option.some.inj hc
    apply hneeds
    have hloop : needsEscapeLoop keyPlace.sepchars 0 false false (d :: s) = true := by
      rw [needsEscapeLoop, if_neg Bool.false_ne_true, if_pos ⟨rfl, hsep⟩]
    rw [absolutelyNeedsEscape, hloop, Bool.or_true]

theorem standsForKey {key : UniConfKey} (h : key.Sliced)
    (hlegible : key = [] ∨ Legible keyPlace keyStops key.printable) :
    StandsForKey (keyText key) key := by
  by_cases hnil : key = []
  · subst hnil
    have htext : keyText [] = [slash] := rfl
    rw [htext]
    refine ⟨by decide, [slash], ⟨by simp, ?_, ⟨by decide, by decide⟩, rfl⟩, by simp, rfl⟩
    intro splitchars hstops
    apply passes_plain
    intro c hc
    obtain rfl : c = slash := by simpa using hc
    have hset : splitchars.set slash = false := by
      by_contra hset
      have hstop := hstops slash (by simpa using hset)
      exact absurd hstop (by decide)
    have halways : alwaysNasty slash = false := by decide
    rw [nasty, hset, halways]
    rfl
  · have hne := printable_ne_nil h hnil
    have htext : keyText key = write keyPlace key.printable := by
      have hempty : key.isempty = false := by simpa [isempty] using hnil
      rw [keyText, write, hempty]
      rfl
    rw [htext]
    refine ⟨head_write_key hne, key.printable, ?_, hne, ofString_printable h⟩
    exact stands_write keyStops_nasty (by decide) (by decide) hne (hlegible.resolve_left hnil)

end UniIniGen

end WvStreams
