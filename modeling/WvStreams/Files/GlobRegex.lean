import WvStreams.Files.WvGlob
import WvStreams.Lib.FilePattern

/-!
# The regular expressions of patterns

Part by part, the regular expression that is written matches what the pattern does, but for a slash
where a bracket expression is negated. Bracket expressions that are not `Plain` are read in another
way than they were written.
-/

namespace WvStreams

open Lib Lib.Ere Lib.FilePattern List Option

namespace WvGlob

def charRegex (c : Byte) : Str := if c ∈ backslashed then [92, c] else [c]

def bracketRegex (b : Bracket) : Str :=
  if b.neg = true then [40, 91, 94] ++ (b.body ++ [93, 41])
  else if b.first = 94 then
    if b.rest = [] then [92, 94] else [40, 92, 94, 124, 91] ++ (b.rest ++ [93, 41])
  else [40, 91] ++ (b.body ++ [93, 41])

mutual

def patternRegex : Pattern → Str
  | .nil => []
  | .char c p => charRegex c ++ patternRegex p
  | .star p => bytes "([^/]*)" ++ patternRegex p
  | .one p => bytes "([^/])" ++ patternRegex p
  | .bracket b p => bracketRegex b ++ patternRegex p
  | .brace a p => [40] ++ (alternativesRegex a ++ ([41] ++ patternRegex p))

def alternativesRegex : Alternatives → Str
  | .last p => patternRegex p
  | .more p a => patternRegex p ++ ([124] ++ alternativesRegex a)

end

/-- A `]` does not come first behind a `!`, where it would end the bracket expression. -/
def Ends (b : Bracket) : Prop := b.neg = true → b.first ≠ 93

/-- A bracket expression that is ended and read as it is meant: its ranges are ones of a regular
expression, and neither another `^` nor a range comes behind a `^` in front. -/
structure Plain (b : Bracket) : Prop where
  ends : Ends b
  ranges : (ranges b.body).isSome
  caret : b.neg = false → b.first = 94 →
    b.rest.head? ≠ some 94 ∧ (b.rest.head? = some 45 → b.rest = [45])

namespace Out

@[simp] theorem puts_puts (out : Out) (s t : Str) : (out.puts s).puts t = out.puts (s ++ t) := by
  obtain ⟨_ | dst, dst_used⟩ := out <;> simp [puts, Nat.add_assoc]

@[simp] theorem puts_nil (out : Out) : out.puts [] = out := by
  obtain ⟨_ | dst, dst_used⟩ := out <;> simp [puts]

@[simp] theorem append_sub (out : Out) (s : Str) : out.append (out.sub.puts s) = out.puts s := by
  obtain ⟨_ | dst, dst_used⟩ := out <;> simp [append, sub, puts]

end Out

section Loop

variable {q : Byte → Bool} {rest : Str} {used : Nat} {out : Out}

theorem loop_quit {c : Byte} (h : q c = true) :
    loop q .NORMAL (c :: rest) used out = .ok (used, out) := by
  rw [loop]
  exact if_pos h

open Out

theorem loop_backslash (h : q 92 = false) (d : Byte) : loop q .NORMAL (92 :: d :: rest) used out =
    loop q .NORMAL rest (used + 2) (out.puts (charRegex d)) := by
  rw [loop]
  dsimp only
  rw [h, if_neg Bool.false_ne_true, if_pos rfl, loop, puts_nil]
  rfl

theorem loop_star (h : q 42 = false) : loop q .NORMAL (42 :: rest) used out =
    loop q .NORMAL rest (used + 1) (out.puts (bytes "([^/]*)")) := by
  rw [loop]
  rw [h]
  rfl

theorem loop_one (h : q 63 = false) : loop q .NORMAL (63 :: rest) used out =
    loop q .NORMAL rest (used + 1) (out.puts (bytes "([^/])")) := by
  rw [loop]
  rw [h]
  rfl

theorem loop_brace (h : q 123 = false) {n : Nat} {s : Str}
    (hbraces : braces rest (used + 1) (out.puts [40]) = .ok (n, out.puts s)) :
    loop q .NORMAL (123 :: rest) used out =
      loop q .NORMAL (rest.drop (n + 1)) (used + 1 + n + 1) (out.puts (s ++ [41])) := by
  rw [loop]
  rw [h, if_neg Bool.false_ne_true, if_neg (by decide), if_neg (by decide), if_neg (by decide),
    if_neg (by decide), if_pos rfl, hbraces]
  dsimp only
  rw [puts_puts]

theorem loop_char {c : Byte} (h : q c = false) (hplain : c ∉ [92, 91, 42, 63, 123]) :
    loop q .NORMAL (c :: rest) used out =
      loop q .NORMAL rest (used + 1) (out.puts (charRegex c)) := by
  simp only [mem_cons, not_mem_nil, or_false, not_or] at hplain
  obtain ⟨h92, h91, h42, h63, h123⟩ := hplain
  have hquoted : c ∈ backslashed ↔ c ∈ quoted := by
    rw [backslashed, mem_append, or_iff_left]
    simp [h92, h91, h42, h63, h123]
  rw [loop]
  rw [h, if_neg Bool.false_ne_true, if_neg h92, if_neg h91, if_neg h42, if_neg h63, if_neg h123,
    charRegex]
  simp only [hquoted]
  split <;> rfl

theorem loop_BRACKET {w : Str} (hw : 93 ∉ w) (hslash : 47 ∉ w) (rest : Str) (used : Nat)
    (out : Out) : loop q .BRACKET (w ++ 93 :: rest) used out =
      loop q .NORMAL rest (used + w.length + 1) (out.puts (w ++ [93, 41])) := by
  induction w generalizing used out with
  | nil =>
    rw [nil_append, loop]
    exact if_pos rfl
  | cons c w ih =>
    rw [mem_cons, not_or] at hw hslash
    rw [cons_append, loop]
    dsimp only
    rw [if_neg (Ne.symm hw.1), if_neg (Ne.symm hslash.1), ih hw.2 hslash.2, puts_puts,
      length_cons, Nat.add_right_comm used 1, Nat.add_assoc used]
    rfl

theorem loop_open (h : q 91 = false) (hne : rest.take 2 ≠ [94, 93]) :
    loop q .NORMAL (91 :: rest) used out =
      loop q .BRACKET_FIRST rest (used + 1) (out.puts [40]) := by
  rw [loop]
  rw [h, if_neg Bool.false_ne_true, if_neg (by decide), if_pos rfl, if_neg hne]

theorem loop_degenerate (h : q 91 = false) : loop q .NORMAL (91 :: 94 :: 93 :: rest) used out =
    loop q .NORMAL rest (used + 3) (out.puts [92, 94]) := by
  rw [loop]
  rw [h, if_neg Bool.false_ne_true, if_neg (by decide), if_pos rfl]
  exact if_pos rfl

theorem loop_first_bang : loop q .BRACKET_FIRST (33 :: rest) used out =
    loop q .BRACKET rest (used + 1) (out.puts [91, 94]) := by
  rw [loop]
  exact if_pos rfl

theorem loop_first_caret : loop q .BRACKET_FIRST (94 :: rest) used out =
    loop q .BRACKET rest (used + 1) (out.puts [92, 94, 124, 91]) := by
  rw [loop]
  exact (if_neg (by decide)).trans (if_pos rfl)

theorem loop_first {c : Byte} (h33 : c ≠ 33) (h94 : c ≠ 94) (h47 : c ≠ 47) :
    loop q .BRACKET_FIRST (c :: rest) used out =
      loop q .BRACKET rest (used + 1) (out.puts [91, c]) := by
  rw [loop]
  exact (if_neg h33).trans ((if_neg h94).trans (if_neg h47))

theorem loop_bracket (h : q 91 = false) {b : Bracket} (hbracket : bracket rest = some b)
    (hends : Ends b) : loop q .NORMAL (91 :: rest) used out =
      loop q .NORMAL (rest.drop (b.text.length + 1)) (used + (b.text.length + 2))
        (out.puts (bracketRegex b)) := by
  obtain ⟨tail, rfl⟩ := bracket_eq_some_iff.mp hbracket
  have hdrop : (b.text ++ 93 :: tail).drop (b.text.length + 1) = tail := by
    simp [drop_append]
  rw [hdrop]
  obtain ⟨neg, first, w, hw, hslash, hpositive⟩ := b
  have hslash' : 47 ≠ first ∧ 47 ∉ w := by
    rwa [mem_cons, not_or] at hslash
  cases neg with
  | true =>
    have hfirst : 93 ∉ first :: w := by
      rw [mem_cons, not_or]
      exact ⟨(hends rfl).symm, hw⟩
    show loop q .NORMAL (91 :: 33 :: (first :: w ++ 93 :: tail)) used out =
      loop q .NORMAL tail (used + (w.length + 2 + 2)) _
    have hindex : used + 1 + 1 + (first :: w).length + 1 = used + (w.length + 2 + 2) := by
      rw [length_cons]
      omega
    rw [loop_open h (by simp), loop_first_bang, loop_BRACKET hfirst hslash, puts_puts,
      puts_puts, hindex]
    rfl
  | false =>
    show loop q .NORMAL (91 :: first :: (w ++ 93 :: tail)) used out =
      loop q .NORMAL tail (used + (w.length + 1 + 2)) _
    have hindex : used + 1 + 1 + w.length + 1 = used + (w.length + 1 + 2) := by omega
    rw [bracketRegex, if_neg Bool.false_ne_true]
    by_cases hcaret : first = 94
    · subst hcaret
      rw [if_pos rfl]
      cases w with
      | nil => exact loop_degenerate h
      | cons d w =>
        have hd : (94 :: (d :: w ++ 93 :: tail)).take 2 ≠ [94, 93] := by
          simpa using fun heq : d = 93 => hw (heq ▸ mem_cons_self)
        rw [loop_open h hd, loop_first_caret, loop_BRACKET hw hslash'.2, puts_puts,
          puts_puts, hindex]
        rfl
    · have hd : (first :: (w ++ 93 :: tail)).take 2 ≠ [94, 93] := by
        simp [hcaret]
      rw [loop_open h hd, loop_first (hpositive rfl) hcaret hslash'.1.symm,
        loop_BRACKET hw hslash'.2, puts_puts, puts_puts, hindex, if_neg hcaret]
      rfl

end Loop

def quits (inner : Bool) : Byte → Bool :=
  if inner = true then brace_quit_chars else normal_quit_chars

theorem quits_iff {inner : Bool} {c : Byte} :
    quits inner c = true ↔ inner = true ∧ (c = 44 ∨ c = 125) := by
  cases inner <;> simp [quits, normal_quit_chars, brace_quit_chars]

/-- The pattern that a string is, up to its end or that of the alternative, is translated. -/
def Translated (s : Str) : Prop :=
  ∀ inner p n, Pattern.parse inner s = some (p, n) → p.Brackets Ends → ∀ used out,
    loop (quits inner) .NORMAL s used out = .ok (used + n, out.puts (patternRegex p))

def TranslatedBraces (s : Str) : Prop :=
  ∀ a n, Alternatives.parse s = some (a, n) → a.Brackets Ends → ∀ used out,
    braces s used out = .ok (n, out.puts (alternativesRegex a))

theorem translated_cons {c : Byte} {rest : Str}
    (h : ∀ t, t.length ≤ rest.length → Translated t ∧ TranslatedBraces t) :
    Translated (c :: rest) := by
  intro inner p n hparse hends used out
  rw [Pattern.parse.eq_def] at hparse
  dsimp only at hparse
  by_cases hquit : inner = true ∧ (c = 44 ∨ c = 125)
  · rw [if_pos hquit] at hparse
    obtain ⟨rfl, rfl⟩ := Prod.mk.inj (some.inj hparse)
    rw [loop_quit (quits_iff.mpr hquit), patternRegex, Out.puts_nil]
    rfl
  have hq : quits inner c = false := Bool.eq_false_iff.mpr fun hq => hquit (quits_iff.mp hq)
  rw [if_neg hquit] at hparse
  by_cases h92 : c = 92
  · subst h92
    rw [if_pos rfl] at hparse
    cases rest with
    | nil => cases hparse
    | cons d rest =>
      obtain ⟨⟨p', n'⟩, hrest, hpair⟩ := map_eq_some_iff.mp hparse
      obtain ⟨rfl, rfl⟩ := Prod.mk.inj hpair
      rw [loop_backslash hq, (h rest (Nat.le_succ _)).1 inner p' n' hrest hends, Out.puts_puts,
        Nat.add_assoc, Nat.add_comm 2]
      rfl
  rw [if_neg h92] at hparse
  by_cases h91 : c = 91
  · subst h91
    rw [if_pos rfl] at hparse
    split at hparse
    · cases hparse
    · rename_i b hbracket
      obtain ⟨⟨p', n'⟩, hrest, hpair⟩ := map_eq_some_iff.mp hparse
      obtain ⟨rfl, rfl⟩ := Prod.mk.inj hpair
      have hlength := (drop_sublist (b.text.length + 1) rest).length_le
      rw [loop_bracket hq hbracket hends.1, (h _ hlength).1 inner p' n' hrest hends.2,
        Out.puts_puts, Nat.add_assoc]
      rfl
  rw [if_neg h91] at hparse
  by_cases h42 : c = 42
  · subst h42
    rw [if_pos rfl] at hparse
    obtain ⟨⟨p', n'⟩, hrest, hpair⟩ := map_eq_some_iff.mp hparse
    obtain ⟨rfl, rfl⟩ := Prod.mk.inj hpair
    rw [loop_star hq, (h rest (Nat.le_refl _)).1 inner p' n' hrest hends, Out.puts_puts,
      Nat.add_assoc, Nat.add_comm 1]
    rfl
  rw [if_neg h42] at hparse
  by_cases h63 : c = 63
  · subst h63
    rw [if_pos rfl] at hparse
    obtain ⟨⟨p', n'⟩, hrest, hpair⟩ := map_eq_some_iff.mp hparse
    obtain ⟨rfl, rfl⟩ := Prod.mk.inj hpair
    rw [loop_one hq, (h rest (Nat.le_refl _)).1 inner p' n' hrest hends, Out.puts_puts,
      Nat.add_assoc, Nat.add_comm 1]
    rfl
  rw [if_neg h63] at hparse
  by_cases h123 : c = 123
  · subst h123
    rw [if_pos rfl] at hparse
    split at hparse
    · cases hparse
    · rename_i a m hbraces
      obtain ⟨⟨p', n'⟩, hrest, hpair⟩ := map_eq_some_iff.mp hparse
      obtain ⟨rfl, rfl⟩ := Prod.mk.inj hpair
      have hout := (h rest (Nat.le_refl _)).2 a m hbraces hends.1 (used + 1) (out.puts [40])
      rw [Out.puts_puts] at hout
      have hindex : used + 1 + m + 1 + n' = used + (m + 2 + n') := by omega
      have hlength : (rest.drop (m + 1)).length ≤ rest.length :=
        (drop_sublist (m + 1) rest).length_le
      rw [loop_brace hq hout, (h _ hlength).1 inner p' n' hrest hends.2, Out.puts_puts, hindex,
        patternRegex, append_assoc, append_assoc]
  rw [if_neg h123] at hparse
  obtain ⟨⟨p', n'⟩, hrest, hpair⟩ := map_eq_some_iff.mp hparse
  obtain ⟨rfl, rfl⟩ := Prod.mk.inj hpair
  have hliteral : c ∉ [92, 91, 42, 63, 123] := by
    simp [h92, h91, h42, h63, h123]
  rw [loop_char hq hliteral, (h rest (Nat.le_refl _)).1 inner p' n' hrest hends, Out.puts_puts,
    Nat.add_assoc, Nat.add_comm 1]
  rfl

theorem translatedBraces {s : Str} (hpattern : Translated s)
    (h : ∀ t, t.length < s.length → TranslatedBraces t) : TranslatedBraces s := by
  intro a n hparse hends used out
  rw [Alternatives.parse.eq_def] at hparse
  rw [braces.eq_def]
  split at hparse
  · cases hparse
  rename_i p m hp
  have hloop (hends : p.Brackets Ends) : loop brace_quit_chars .NORMAL s 0 out.sub =
      .ok (m, out.sub.puts (patternRegex p)) := by
    have hrun := hpattern true p m hp hends 0 out.sub
    rwa [Nat.zero_add] at hrun
  split at hparse
  · rename_i rest hrest
    obtain ⟨rfl, rfl⟩ := Prod.mk.inj (some.inj hparse)
    rw [hloop hends]
    dsimp only
    split
    · rw [Out.append_sub]
      rfl
    · rename_i hcomma
      rw [hrest] at hcomma
      cases hcomma
    · rename_i hother _
      exact absurd hrest (hother rest)
  · rename_i rest hrest
    obtain ⟨⟨a', k⟩, ha, hpair⟩ := map_eq_some_iff.mp hparse
    obtain ⟨rfl, rfl⟩ := Prod.mk.inj hpair
    have hlength : rest.length < s.length := by
      have hdrop := congrArg length hrest
      rw [length_drop, length_cons] at hdrop
      omega
    rw [hloop hends.1]
    dsimp only
    split
    · rename_i hclose
      rw [hrest] at hclose
      cases hclose
    · rename_i rest' hrest'
      obtain rfl : rest = rest' := (cons.inj (hrest.symm.trans hrest')).2
      rw [Out.append_sub, Out.puts_puts, h rest hlength a' k ha hends.2]
      dsimp only
      rw [Out.puts_puts, append_assoc]
      rfl
    · rename_i hother
      exact absurd hrest (hother rest)
  · cases hparse

theorem translated (s : Str) : Translated s ∧ TranslatedBraces s := by
  induction hlength : s.length using Nat.strong_induction_on generalizing s with
  | h n ih =>
    have hpattern : Translated s := by
      cases s with
      | nil =>
        intro inner p n hparse hends used out
        rw [Pattern.parse] at hparse
        obtain ⟨rfl, rfl⟩ := Prod.mk.inj (some.inj hparse)
        rw [loop, patternRegex, Out.puts_nil]
        rfl
      | cons c rest =>
        apply translated_cons
        intro t ht
        exact ih t.length (by simp at hlength; omega) t rfl
    exact ⟨hpattern, translatedBraces hpattern fun t ht => (ih t.length (hlength ▸ ht) t rfl).2⟩

end WvGlob

end WvStreams
