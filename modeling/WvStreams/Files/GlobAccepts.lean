import WvStreams.Files.GlobRegex

/-!
# The globs that are accepted

A glob without `[!]` is a pattern if it is accepted.
-/

namespace WvStreams

open Lib Lib.FilePattern List

namespace WvGlob

section Loop

variable {q : Byte → Bool} {rest : Str} {used n : Nat} {out out' : Out}

theorem closing_of_BRACKET (h : loop q .BRACKET rest used out = .ok (n, out')) :
    ∃ w tail, rest = w ++ 93 :: tail ∧ 93 ∉ w ∧ 47 ∉ w := by
  induction rest generalizing used out with
  | nil =>
    rw [loop] at h
    cases h
  | cons c rest ih =>
    rw [loop] at h
    by_cases hclose : c = 93
    · subst hclose
      exact ⟨[], rest, rfl, not_mem_nil, not_mem_nil⟩
    · rw [if_neg hclose] at h
      split at h
      · cases h
      · rename_i hslash
        obtain ⟨w, tail, rfl, hw, hw'⟩ := ih h
        refine ⟨c :: w, tail, rfl, ?_, ?_⟩
        · rw [mem_cons, not_or]
          exact ⟨Ne.symm hclose, hw⟩
        · rw [mem_cons, not_or]
          exact ⟨Ne.symm hslash, hw'⟩

theorem bracket_of_loop (hq : q 91 = false) (hbang : ¬ [91, 33, 93] <:+: 91 :: rest)
    (h : loop q .NORMAL (91 :: rest) used out = .ok (n, out')) :
    ∃ b, bracket rest = some b ∧ Ends b := by
  by_cases hcaret : rest.take 2 = [94, 93]
  · let b : Bracket := ⟨false, 94, [], by simp, by simp, by simp⟩
    refine ⟨b, bracket_eq_some_iff.mpr ⟨rest.drop 2, ?_⟩, fun h => by cases h⟩
    rw [← take_append_drop 2 rest, hcaret]
    rfl
  rw [loop_open hq hcaret] at h
  cases rest with
  | nil =>
    rw [loop] at h
    cases h
  | cons c rest =>
    by_cases h33 : c = 33
    · subst h33
      rw [loop_first_bang] at h
      obtain ⟨w, tail, rfl, hw, hw'⟩ := closing_of_BRACKET h
      cases w with
      | nil => exact absurd ⟨[], tail, rfl⟩ hbang
      | cons d w =>
        rw [mem_cons, not_or] at hw
        let b : Bracket := ⟨true, d, w, hw.2, hw', by simp⟩
        exact ⟨b, bracket_eq_some_iff.mpr ⟨tail, rfl⟩, fun _ => Ne.symm hw.1⟩
    have hrest (h47 : c ≠ 47) {s : Str}
        (h : loop q .BRACKET rest (used + 2) (out.puts s) = .ok (n, out')) :
        ∃ b, bracket (c :: rest) = some b ∧ Ends b := by
      obtain ⟨w, tail, rfl, hw, hw'⟩ := closing_of_BRACKET h
      have hslash : 47 ∉ c :: w := by
        rw [mem_cons, not_or]
        exact ⟨Ne.symm h47, hw'⟩
      let b : Bracket := ⟨false, c, w, hw, hslash, fun _ => h33⟩
      exact ⟨b, bracket_eq_some_iff.mpr ⟨tail, rfl⟩, fun h => by cases h⟩
    by_cases h94 : c = 94
    · subst h94
      rw [loop_first_caret, Out.puts_puts] at h
      exact hrest (by simp) h
    by_cases h47 : c = 47
    · subst h47
      rw [loop] at h
      cases h
    · rw [loop_first h33 h94 h47, Out.puts_puts] at h
      exact hrest h47 h

end Loop

def Accepted (s : Str) : Prop :=
  ¬ [91, 33, 93] <:+: s → ∀ inner used out result,
    loop (quits inner) .NORMAL s used out = .ok result →
      ∃ parsed, Pattern.parse inner s = some parsed ∧ parsed.1.Brackets Ends

def AcceptedBraces (s : Str) : Prop :=
  ¬ [91, 33, 93] <:+: s → ∀ used out result, braces s used out = .ok result →
    ∃ a, Alternatives.parse s = some (a, result.1) ∧ a.Brackets Ends

theorem accepted_cons {c : Byte} {rest : Str}
    (h : ∀ t, t.length ≤ rest.length → Accepted t ∧ AcceptedBraces t) : Accepted (c :: rest) := by
  intro hbang inner used out result hloop
  have hbang' {t : Str} (ht : t <:+ rest) : ¬ [91, 33, 93] <:+: t := fun hmem =>
    hbang (hmem.trans (ht.trans (suffix_cons c rest)).isInfix)
  have hrest {t : Str} (ht : t <:+ rest) := (h t ht.length_le).1 (hbang' ht) inner
  rw [Pattern.parse.eq_def]
  dsimp only
  by_cases hquit : inner = true ∧ (c = 44 ∨ c = 125)
  · rw [if_pos hquit]
    exact ⟨_, rfl, trivial⟩
  have hq : quits inner c = false := Bool.eq_false_iff.mpr fun hq => hquit (quits_iff.mp hq)
  rw [if_neg hquit]
  by_cases h92 : c = 92
  · subst h92
    rw [if_pos rfl]
    cases rest with
    | nil =>
      rw [loop] at hloop
      dsimp only at hloop
      rw [hq, if_neg Bool.false_ne_true, if_pos rfl, loop] at hloop
      cases hloop
    | cons d rest =>
      rw [loop_backslash hq] at hloop
      obtain ⟨⟨p, n⟩, hparse, hends⟩ := hrest (suffix_cons d rest) _ _ _ hloop
      dsimp only
      rw [hparse]
      exact ⟨_, rfl, hends⟩
  rw [if_neg h92]
  by_cases h91 : c = 91
  · subst h91
    rw [if_pos rfl]
    obtain ⟨b, hb, hends⟩ := bracket_of_loop hq hbang hloop
    rw [loop_bracket hq hb hends] at hloop
    obtain ⟨⟨p, n⟩, hparse, hends'⟩ := hrest (drop_suffix _ rest) _ _ _ hloop
    rw [hb]
    dsimp only
    rw [hparse]
    exact ⟨_, rfl, hends, hends'⟩
  rw [if_neg h91]
  by_cases h42 : c = 42
  · subst h42
    rw [if_pos rfl]
    rw [loop_star hq] at hloop
    obtain ⟨⟨p, n⟩, hparse, hends⟩ := hrest suffix_rfl _ _ _ hloop
    rw [hparse]
    exact ⟨_, rfl, hends⟩
  rw [if_neg h42]
  by_cases h63 : c = 63
  · subst h63
    rw [if_pos rfl]
    rw [loop_one hq] at hloop
    obtain ⟨⟨p, n⟩, hparse, hends⟩ := hrest suffix_rfl _ _ _ hloop
    rw [hparse]
    exact ⟨_, rfl, hends⟩
  rw [if_neg h63]
  by_cases h123 : c = 123
  · subst h123
    rw [if_pos rfl]
    rw [loop] at hloop
    rw [hq, if_neg Bool.false_ne_true, if_neg h92, if_neg h91, if_neg h42, if_neg h63,
      if_pos rfl] at hloop
    split at hloop
    · cases hloop
    · rename_i m out' hbraces
      obtain ⟨a, ha, hends⟩ :=
        (h rest (Nat.le_refl _)).2 (hbang' suffix_rfl) _ _ _ hbraces
      obtain ⟨⟨p, n⟩, hparse, hends'⟩ := hrest (drop_suffix _ rest) _ _ _ hloop
      rw [ha]
      dsimp only
      rw [hparse]
      exact ⟨_, rfl, hends, hends'⟩
  rw [if_neg h123]
  have hliteral : c ∉ [92, 91, 42, 63, 123] := by
    simp [h92, h91, h42, h63, h123]
  rw [loop_char hq hliteral] at hloop
  obtain ⟨⟨p, n⟩, hparse, hends⟩ := hrest suffix_rfl _ _ _ hloop
  rw [hparse]
  exact ⟨_, rfl, hends⟩

theorem acceptedBraces {s : Str} (hpattern : Accepted s)
    (h : ∀ t, t.length < s.length → AcceptedBraces t) : AcceptedBraces s := by
  intro hbang used out result hbraces
  rw [braces.eq_def] at hbraces
  split at hbraces
  · cases hbraces
  rename_i n sub hloop
  obtain ⟨⟨p, m⟩, hparse, hends⟩ := hpattern hbang true 0 out.sub _ hloop
  have htranslated := (translated s).1 true p m hparse hends 0 out.sub
  obtain rfl : n = m := by
    have hpair := Prod.mk.inj (Except.ok.inj (hloop.symm.trans htranslated))
    exact hpair.1.trans (Nat.zero_add m)
  rw [Alternatives.parse.eq_def, hparse]
  dsimp only at hbraces ⊢
  split at hbraces
  · rename_i tail hclose
    obtain rfl := Except.ok.inj hbraces
    refine ⟨.last p, ?_, hends⟩
    split
    · rfl
    · rename_i hcomma
      rw [hclose] at hcomma
      cases hcomma
    · rename_i hother _
      exact absurd hclose (hother tail)
  · rename_i rest hcomma
    split at hbraces
    · cases hbraces
    rename_i used' out' hmore
    obtain rfl := Except.ok.inj hbraces
    have hsuffix : rest <:+ s := by
      have htail : rest <:+ s.drop n := hcomma ▸ suffix_cons 44 rest
      exact htail.trans (drop_suffix n s)
    have hlength : rest.length < s.length := by
      have hdrop := congrArg length hcomma
      rw [length_drop, length_cons] at hdrop
      omega
    obtain ⟨a, ha, hends'⟩ :=
      h rest hlength (fun hmem => hbang (hmem.trans hsuffix.isInfix)) _ _ _ hmore
    refine ⟨.more p a, ?_, hends, hends'⟩
    split
    · rename_i hclose
      rw [hcomma] at hclose
      cases hclose
    · rename_i rest' hcomma'
      obtain rfl : rest = rest' := (cons.inj (hcomma.symm.trans hcomma')).2
      rw [ha]
      rfl
    · rename_i hother
      exact absurd hcomma (hother rest)
  · cases hbraces

theorem accepted (s : Str) : Accepted s ∧ AcceptedBraces s := by
  induction hlength : s.length using Nat.strong_induction_on generalizing s with
  | h n ih =>
    have hpattern : Accepted s := by
      cases s with
      | nil =>
        intro _ inner used out result _
        exact ⟨(.nil, 0), by rw [Pattern.parse], trivial⟩
      | cons c rest =>
        apply accepted_cons
        intro t ht
        exact ih t.length (by simp at hlength; omega) t rfl
    exact ⟨hpattern, acceptedBraces hpattern fun t ht => (ih t.length (hlength ▸ ht) t rfl).2⟩

end WvGlob

end WvStreams
