import WvStreams.Files.GlobAccepts

/-!
# What the regular expressions match

The regular expression of a pattern whose bracket expressions are plain matches what the pattern
does, and also a slash where a bracket expression is negated.
-/

namespace WvStreams

open Lib Lib.Ere Lib.FilePattern List Pattern

namespace WvGlob

theorem reads_charRegex (c : Byte) : Reads (charRegex c) (· = [c]) := by
  rw [charRegex]
  split
  · exact reads_quoted c
  · rename_i hc
    simp only [backslashed, quoted, mem_append, mem_cons, not_mem_nil, or_false, not_or] at hc
    apply reads_char
    intro st
    simp [special, hc]

theorem reads_one : Reads (bytes "([^/])") fun s => ∃ c, s = [c] ∧ c ≠ 47 := by
  have hset : Reads [91, 94, 47, 93] _ := @reads_set [] true 47 _ not_mem_nil rfl (by simp)
  apply hset.branches.group.iff
  simp [listed_one_iff]

theorem reads_star : Reads (bytes "([^/]*)") (47 ∉ ·) := by
  have hset : Reads [91, 94, 47, 93, 42] _ :=
    @reads_star_set [] true 47 _ not_mem_nil rfl (by simp)
  apply hset.branches.group.iff
  intro s
  simp only [listed_one_iff, Bool.true_eq_false, iff_false]
  exact ⟨fun h hmem => h 47 hmem rfl, fun h c hc heq => h (heq ▸ hc)⟩

theorem reads_bracketRegex {b : Bracket} (hplain : Plain b)
    (hslash : b.neg = false → ¬ Lists b.body 47) :
    Reads (bracketRegex b) fun s => ∃ c, s = [c] ∧ b.Takes true c := by
  obtain ⟨l, hl⟩ := Option.isSome_iff_exists.mp hplain.ranges
  have htakes (c : Byte) : b.Takes true c ↔ (Listed l c ↔ b.neg = false) := by
    rw [Bracket.Takes, lists_iff hl, and_iff_left_iff_imp]
    rintro h rfl
    refine ⟨Bool.eq_true_of_not_eq_false fun hneg => ?_, rfl⟩
    exact hslash hneg ((lists_iff hl 47).mpr (h.mpr hneg))
  simp only [htakes]
  obtain ⟨neg, first, w, hw, hslashless, hpositive⟩ := b
  have hclose (w : Str) : w ++ [93] ++ [41] = w ++ [93, 41] := append_assoc w [93] [41]
  cases neg with
  | true =>
    have hset := @reads_set w true first l hw hl (hplain.ends rfl)
    have hgroup := hset.branches.group
    rw [append_assoc, hclose] at hgroup
    exact hgroup
  | false =>
    by_cases hcaret : first = 94
    · subst hcaret
      obtain ⟨hnegated, hrange⟩ := hplain.caret rfl rfl
      cases w with
      | nil =>
        obtain rfl := Option.some.inj hl
        apply (reads_quoted 94).iff
        simp [listed_one_iff]
      | cons d w =>
        have hd : d = 45 → w = [] := by
          rintro rfl
          exact (cons.inj (hrange rfl)).2
        obtain ⟨l', hl', rfl⟩ := ranges_cons (by simp) hd hl
        have hset := @reads_set w false d l' (fun h => hw (mem_cons_of_mem d h)) hl'
          fun heq => hnegated (congrArg some heq)
        have hgroup := ((reads_quoted 94).bar hset.branches).group
        rw [append_assoc, append_assoc, append_assoc, hclose] at hgroup
        apply hgroup.iff
        intro s
        simp only [listed_cons_iff, iff_true]
        constructor
        · rintro (rfl | ⟨c, rfl, hc⟩)
          · exact ⟨94, rfl, .inl rfl⟩
          · exact ⟨c, rfl, .inr hc⟩
        · rintro ⟨c, rfl, rfl | hc⟩
          · exact .inl rfl
          · exact .inr ⟨c, rfl, hc⟩
    · have hset := @reads_set w false first l hw hl hcaret
      have hgroup := hset.branches.group
      rw [append_assoc, hclose] at hgroup
      rw [bracketRegex, if_neg Bool.false_ne_true, if_neg hcaret]
      exact hgroup

/-- A bracket expression that is not negated has no range that a slash is in. -/
def SlashFree (b : Bracket) : Prop := b.neg = false → ¬ Lists b.body 47

mutual

theorem reads_pattern : {p : Pattern} → p.Brackets Plain → p.Brackets SlashFree →
    Reads (patternRegex p) (p.Matches true)
  | .nil, _, _ => reads_nil
  | .char c p, hplain, hfree => by
    have hp : Reads (patternRegex p) (p.Matches true) := reads_pattern hplain hfree
    apply ((reads_charRegex c).append hp).iff
    simp [Pattern.Matches]
  | .star p, hplain, hfree => reads_star.append (reads_pattern hplain hfree)
  | .one p, hplain, hfree => reads_one.cons (reads_pattern hplain hfree)
  | .bracket b p, hplain, hfree =>
    (reads_bracketRegex hplain.1 hfree.1).cons (reads_pattern hplain.2 hfree.2)
  | .brace a p, hplain, hfree => by
    have hgroup := (reads_alternatives hplain.1 hfree.1).group
    have hbrace := hgroup.append (reads_pattern hplain.2 hfree.2)
    rw [append_assoc, append_assoc] at hbrace
    exact hbrace

theorem reads_alternatives : {a : Alternatives} → a.Brackets Plain → a.Brackets SlashFree →
    ReadsBranches (alternativesRegex a) (a.Matches true)
  | .last _, hplain, hfree => Reads.branches (reads_pattern hplain hfree)
  | .more _ _, hplain, hfree =>
    (reads_pattern hplain.1 hfree.1).bar (reads_alternatives hplain.2 hfree.2)

end

/-- The same is written, or the same is wrong, whatever was written. -/
def Writes (f : Out → Except Str (Nat × Out)) : Prop :=
  (∃ errstr, ∀ out, f out = .error errstr) ∨ ∃ n s, ∀ out, f out = .ok (n, out.puts s)

namespace Writes

variable {f g : Out → Except Str (Nat × Out)}

theorem error (errstr : Str) : Writes fun _ => .error errstr := .inl ⟨errstr, fun _ => rfl⟩

theorem ok (n : Nat) : Writes fun out => .ok (n, out) :=
  .inr ⟨n, [], fun out => by rw [Out.puts_nil]⟩

theorem puts (h : Writes f) (s : Str) : Writes fun out => f (out.puts s) := by
  obtain ⟨errstr, h⟩ | ⟨n, t, h⟩ := h
  · exact .inl ⟨errstr, fun out => h (out.puts s)⟩
  · exact .inr ⟨n, s ++ t, fun out => (h (out.puts s)).trans (by rw [Out.puts_puts])⟩

theorem ite {p : Prop} [Decidable p] (hf : Writes f) (hg : Writes g) :
    Writes fun out => if p then f out else g out := by
  by_cases hp : p
  · simpa only [if_pos hp] using hf
  · simpa only [if_neg hp] using hg

theorem bind {k : Nat → Out → Except Str (Nat × Out)} (hf : Writes f) (hk : ∀ n, Writes (k n)) :
    Writes fun out =>
      match f out with
      | .error errstr => .error errstr
      | .ok (n, out) => k n out := by
  obtain ⟨errstr, hf⟩ | ⟨n, s, hf⟩ := hf
  · simp only [hf]
    exact error errstr
  · simp only [hf]
    exact (hk n).puts s

end Writes

def PassesAgree (s : Str) : Prop :=
  (∀ q state used, Writes (loop q state s used)) ∧ ∀ used, Writes (braces s used)

theorem writes_cons {c : Byte} {rest : Str}
    (h : ∀ t, t.length ≤ rest.length → PassesAgree t) (q : Byte → Bool) (state : State)
    (used : Nat) : Writes (loop q state (c :: rest) used) := by
  have hnext (state : State) (s : Str) :
      Writes fun out => loop q state rest (used + 1) (out.puts s) :=
    ((h rest (Nat.le_refl _)).1 q state (used + 1)).puts s
  show Writes fun out => loop q state (c :: rest) used out
  cases state with
  | NORMAL =>
    simp only [loop]
    apply Writes.ite (Writes.ok used)
    apply Writes.ite (hnext .BACKSLASH [])
    apply Writes.ite
    · apply Writes.ite _ (hnext .BRACKET_FIRST [40])
      have hlength : (rest.drop 2).length ≤ rest.length := (drop_sublist 2 rest).length_le
      exact ((h _ hlength).1 q .NORMAL (used + 3)).puts [92, 94]
    apply Writes.ite (hnext .NORMAL _)
    apply Writes.ite (hnext .NORMAL _)
    apply Writes.ite
    · have hbraces := ((h rest (Nat.le_refl _)).2 (used + 1)).puts [40]
      refine hbraces.bind fun n => ?_
      have hlength : (rest.drop (n + 1)).length ≤ rest.length :=
        (drop_sublist (n + 1) rest).length_le
      exact ((h _ hlength).1 q .NORMAL (used + 1 + n + 1)).puts [41]
    exact Writes.ite (hnext .NORMAL [92, c]) (hnext .NORMAL [c])
  | BACKSLASH =>
    simp only [loop]
    exact hnext .NORMAL _
  | BRACKET =>
    simp only [loop]
    exact Writes.ite (hnext .NORMAL [93, 41]) (Writes.ite (Writes.error _) (hnext .BRACKET [c]))
  | BRACKET_FIRST =>
    simp only [loop]
    apply Writes.ite (hnext .BRACKET [91, 94])
    apply Writes.ite (hnext .BRACKET [92, 94, 124, 91])
    exact Writes.ite (Writes.error _) (hnext .BRACKET [91, c])

theorem braces_of_loop {s : Str} {n : Nat} {t : Str}
    (hloop : ∀ out : Out, loop brace_quit_chars .NORMAL s 0 out = .ok (n, out.puts t)) (used : Nat)
    (out : Out) : braces s used out =
      match s.drop n with
      | 125 :: _ => .ok (n, out.puts t)
      | 44 :: rest =>
        match braces rest (used + n + 1) (out.puts (t ++ [124])) with
        | .error errstr => .error errstr
        | .ok (k, out) => .ok (n + 1 + k, out)
      | _ => .error (message "Unfinished brace expression" (used + n)) := by
  rw [braces.eq_def, hloop]
  dsimp only
  rw [Out.append_sub]
  split
  · rename_i hclose
    rw [hclose]
    rfl
  · rename_i hcomma
    rw [hcomma, Out.puts_puts]
    rfl
  · rename_i hclose hcomma
    split
    · rename_i hdrop
      exact absurd hdrop (hclose _)
    · rename_i hdrop
      exact absurd hdrop (hcomma _)
    · rfl

theorem writes_braces {s : Str} (hloop : Writes (loop brace_quit_chars .NORMAL s 0))
    (h : ∀ t, t.length < s.length → ∀ used, Writes (braces t used)) (used : Nat) :
    Writes (braces s used) := by
  obtain ⟨errstr, hloop⟩ | ⟨n, t, hloop⟩ := hloop
  · refine .inl ⟨errstr, fun out => ?_⟩
    rw [braces, hloop]
  · show Writes fun out => braces s used out
    simp only [braces_of_loop hloop]
    split
    · exact (Writes.ok n).puts t
    · rename_i rest hrest
      have hlength : rest.length < s.length := by
        have hdrop := congrArg length hrest
        rw [length_drop, length_cons] at hdrop
        omega
      exact ((h rest hlength (used + n + 1)).puts (t ++ [124])).bind fun k => Writes.ok (n + 1 + k)
    · exact Writes.error _

theorem passesAgree (s : Str) : PassesAgree s := by
  induction hlength : s.length using Nat.strong_induction_on generalizing s with
  | h n ih =>
    have hloop (q : Byte → Bool) (state : State) (used : Nat) : Writes (loop q state s used) := by
      cases s with
      | nil =>
        show Writes fun out => loop q state [] used out
        cases state <;> simp only [loop]
        · exact Writes.ok used
        all_goals exact Writes.error _
      | cons c rest =>
        apply writes_cons
        intro t ht
        exact ih t.length (by simp at hlength; omega) t rfl
    exact ⟨hloop, writes_braces (hloop _ _ 0) fun t ht => (ih t.length (hlength ▸ ht) t rfl).2⟩

/-- What the first pass counts is written by the second one. -/
def CountsRight (g : Str) : Prop :=
  ∀ n counted, loop normal_quit_chars .NORMAL g 0 ⟨none, 0⟩ = .ok (n, counted) →
    ∃ s, loop normal_quit_chars .NORMAL g 0 ⟨some [], 0⟩ = .ok (n, ⟨some s, counted.dst_used⟩) ∧
      s.length = counted.dst_used

theorem countsRight (g : Str) : CountsRight g := by
  intro n counted hcounted
  obtain ⟨errstr, h⟩ | ⟨k, s, h⟩ := (passesAgree g).1 normal_quit_chars .NORMAL 0
  · rw [h] at hcounted
    cases hcounted
  · obtain ⟨rfl, rfl⟩ := Prod.mk.inj (Except.ok.inj ((h ⟨none, 0⟩).symm.trans hcounted))
    exact ⟨s, h ⟨some [], 0⟩, (Nat.zero_add s.length).symm⟩

theorem glob_to_regex_eq {g s : Str} {n : Nat}
    (h : ∀ out, loop normal_quit_chars .NORMAL g 0 out = .ok (n, out.puts s)) :
    glob_to_regex (some g) = some (.ok (94 :: s ++ [36])) := by
  rw [glob_to_regex, h, h]
  exact if_pos (Nat.le_refl _)

def Faithful (p : Pattern) (regex : Str) : Prop :=
  ∃ r, Ere.read regex = some r ∧ ∀ s, Accepts r s ↔ p.Matches false s

theorem faithful_iff {g : Str} {p : Pattern} (hread : FilePattern.read g = some p)
    (hplain : p.Brackets Plain) (hfree : p.Brackets SlashFree) :
    ∃ regex, glob_to_regex (some g) = some (.ok regex) ∧
      (Faithful p regex ↔ ∀ s, p.Matches true s → p.Matches false s) := by
  obtain ⟨⟨p', n⟩, hparse, rfl⟩ := Option.map_eq_some_iff.mp hread
  have hends : p'.Brackets Ends := p'.brackets_imp (fun _ h => h.ends) hplain
  have hloop := (translated g).1 false p' n hparse hends 0
  refine ⟨_, glob_to_regex_eq hloop, ?_⟩
  obtain ⟨r, hr, hmatches⟩ := (reads_pattern hplain hfree).anchored
  constructor
  · rintro ⟨r', hr', haccepts⟩ s hs
    obtain rfl := Option.some.inj (hr.symm.trans hr')
    exact (haccepts s).mp ((hmatches s).mpr hs)
  · intro hslash
    refine ⟨r, hr, fun s => (hmatches s).trans ⟨hslash s, matches_mono⟩⟩

theorem read_of_accepts {g regex : Str} (h : glob_to_regex (some g) = some (.ok regex))
    (hbang : ¬ [91, 33, 93] <:+: g) : ∃ p, FilePattern.read g = some p := by
  have hloop : ∃ result, loop normal_quit_chars .NORMAL g 0 ⟨none, 0⟩ = .ok result := by
    rw [glob_to_regex] at h
    cases hcounted : loop normal_quit_chars .NORMAL g 0 ⟨none, 0⟩ with
    | error errstr =>
      rw [hcounted] at h
      cases h
    | ok result => exact ⟨result, rfl⟩
  obtain ⟨result, hresult⟩ := hloop
  obtain ⟨parsed, hparse, -⟩ := (accepted g).1 hbang false 0 _ result hresult
  exact ⟨parsed.1, congrArg (Option.map Prod.fst) hparse⟩

theorem read_bracket {s : Str} {b : Bracket} (h : bracket s = some b)
    (hend : s.drop (b.text.length + 1) = []) :
    FilePattern.read (91 :: s) = some (.bracket b .nil) := by
  rw [FilePattern.read, parse.eq_def]
  dsimp only
  rw [if_neg (fun hquit => Bool.false_ne_true hquit.1), if_neg (by decide), if_pos rfl, h]
  dsimp only
  rw [hend, parse]
  rfl

/-- A glob that is accepted is a pattern if it has no `[!]`, and a pattern whose bracket expressions
are plain is translated right if no string matches only because a negated one takes a slash. -/
theorem translates_iff (g : Str) : CountsRight g ∧
    (∀ regex, glob_to_regex (some g) = some (.ok regex) → ¬ [91, 33, 93] <:+: g →
      ∃ p, FilePattern.read g = some p) ∧
    ∀ p, FilePattern.read g = some p → p.Brackets Plain → p.Brackets SlashFree →
      ∃ regex, glob_to_regex (some g) = some (.ok regex) ∧
        (Faithful p regex ↔ ∀ s, p.Matches true s → p.Matches false s) :=
  ⟨countsRight g, fun _ => read_of_accepts, fun _ => faithful_iff⟩

theorem translates_range : ∃ p regex, FilePattern.read (bytes "[a-c]") = some p ∧
    glob_to_regex (some (bytes "[a-c]")) = some (.ok regex) ∧ Faithful p regex := by
  let b : Bracket := ⟨false, 97, [45, 99], by simp, by simp, by simp⟩
  have hread : FilePattern.read (bytes "[a-c]") = some (.bracket b .nil) := read_bracket rfl rfl
  have hplain : Plain b := ⟨fun h => (by cases h), rfl, fun _ h => (by cases h)⟩
  have hfree : SlashFree b := by
    rintro - ⟨p, hp, hle, -⟩
    obtain rfl := List.mem_singleton.mp hp
    exact absurd hle (by decide)
  obtain ⟨regex, hregex, hiff⟩ :=
    (translates_iff (bytes "[a-c]")).2.2 _ hread ⟨hplain, trivial⟩ ⟨hfree, trivial⟩
  have hpositive : (bracket b .nil).Brackets fun b => b.neg = false := ⟨rfl, trivial⟩
  exact ⟨_, regex, hread, hregex, hiff.mpr fun s => matches_slashless hpositive⟩

/-- `[!a]` matches a slash, too, and `[!]]` ends at its first `]`, so that the parenthesis is not
closed. -/
theorem not_translates :
    (∃ p regex, FilePattern.read (bytes "[!a]") = some p ∧ p.Brackets SlashFree ∧
      glob_to_regex (some (bytes "[!a]")) = some (.ok regex) ∧ ¬ Faithful p regex) ∧
    ∃ p regex, FilePattern.read (bytes "[!]]") = some p ∧ p.Brackets SlashFree ∧
      glob_to_regex (some (bytes "[!]]")) = some (.ok regex) ∧ ¬ Faithful p regex := by
  constructor
  · let b : Bracket := ⟨true, 97, [], by simp, by simp, by simp⟩
    have hread : FilePattern.read (bytes "[!a]") = some (.bracket b .nil) := read_bracket rfl rfl
    have hplain : Plain b := ⟨fun _ h => (by cases h), rfl, fun h => (by cases h)⟩
    have hfree : SlashFree b := nofun
    obtain ⟨regex, hregex, hiff⟩ := faithful_iff hread ⟨hplain, trivial⟩ ⟨hfree, trivial⟩
    refine ⟨_, regex, hread, ⟨hfree, trivial⟩, hregex, fun h => ?_⟩
    have hlists : ¬ Lists [97] 47 := fun h => absurd (listed_one_iff.mp h) (by simp)
    have hmatch : (bracket b .nil).Matches true [47] :=
      ⟨47, [], rfl, ⟨iff_of_false hlists (by simp [b]), fun _ => ⟨rfl, rfl⟩⟩, rfl⟩
    obtain ⟨c, t, hc, htakes, -⟩ := hiff.mp h [47] hmatch
    cases (htakes.2 (List.cons.inj hc).1.symm).2
  · let b : Bracket := ⟨true, 93, [], by simp, by simp, by simp⟩
    have hread : FilePattern.read (bytes "[!]]") = some (.bracket b .nil) := read_bracket rfl rfl
    have hfree : SlashFree b := nofun
    have hregex : glob_to_regex (some (bytes "[!]]")) = some (.ok (bytes "^([^])]$")) := by
      show glob_to_regex (some [91, 33, 93, 93]) = _
      simp [glob_to_regex, loop, Out.puts, normal_quit_chars, quoted]
      rfl
    refine ⟨_, _, hread, ⟨hfree, trivial⟩, hregex, ?_⟩
    rintro ⟨r, hr, -⟩
    cases hr
end WvGlob

end WvStreams
