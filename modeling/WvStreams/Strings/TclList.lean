import WvStreams.Strings.TclForms

/-!
# Encoding and decoding lists

`wvtclEscape` writes a string in one of the forms that `wvtclDecode` accepts, so an encoded
list is read back unless its last element is an open line continuation, provided that the
scanner finds the elements although the brace or the backslash in front of one may be a split
character (`decode_encode_iff`).
-/

namespace WvStreams

open List

/-- A string as it is stored: without NUL. -/
abbrev CString := { s : Str // (0 : Byte) ∉ s }

/-! ## The form that `wvtcl_escape` chooses -/

def escapeForm (nasties : WvStringMask) (s : Str) : Form :=
  if s = [] then .braced []
  else if braces false 0 s then
    if ∀ c ∈ s, nasty nasties c = false then .bare s else .braced s
  else .backslashed (s.map fun c => (nasty nasties c, c))

namespace EscapeCount

variable (nasties : WvStringMask)

open EscapeCount

theorem unprintables_foldl (n : EscapeCount) (s : Str) :
    (s.foldl (next nasties) n).unprintables =
      n.unprintables + s.countP (nasty nasties) := by
  induction s generalizing n with
  | nil => rfl
  | cons c s ih =>
    rw [foldl_cons, ih, countP_cons]
    simp only [next]
    split <;> omega

theorem backslashify_foldl {n : EscapeCount} (h : n.backslashify = true) (s : Str) :
    (s.foldl (next nasties) n).backslashify = true := by
  induction s generalizing n with
  | nil => exact h
  | cons c s ih =>
    rw [foldl_cons]
    apply ih
    simp [next, h]

theorem foldl_braces {n : EscapeCount} {k : Nat} (hk : n.bracecount = k)
    (hn : n.backslashify = false) (s : Str) :
    let m := s.foldl (next nasties) n
    (m.backslashify || m.bracecount != 0 || m.inescape) = !braces n.inescape k s := by
  induction s generalizing n k with
  | nil =>
    have hzero : ((k : Int) != 0) = !(k == 0) := by cases k <;> rfl
    simp [braces, hn, hk, hzero, Bool.or_comm]
  | cons c s ih =>
    have hstep : ∀ (k' : Nat) (inescape : Bool), (next nasties n c).bracecount = k' →
        (next nasties n c).inescape = inescape → (let m := (c :: s).foldl (next nasties) n
         (m.backslashify || m.bracecount != 0 || m.inescape) = !braces inescape k' s) := by
      intro k' inescape hcount hinescape
      have hfine : (next nasties n c).backslashify = false := by
        have hnot : ¬ (next nasties n c).bracecount < 0 := by omega
        simpa [next, hn] using hnot
      have h := ih hcount hfine
      rw [hinescape] at h
      exact h
    rw [braces]
    cases hinescape : n.inescape with
    | true =>
      rw [if_pos rfl]
      apply hstep <;> simp [next, hinescape, hk]
    | false =>
      rw [if_neg Bool.false_ne_true]
      by_cases hb : c = backslash
      · rw [if_pos hb]
        have hl : c ≠ lbrace := hb ▸ lbrace_ne_backslash.symm
        have hr : c ≠ rbrace := hb ▸ rbrace_ne_backslash.symm
        apply hstep
        · simp [next, hl, hr, hk]
        · simp [next, hinescape, hb]
      · rw [if_neg hb]
        by_cases hl : c = lbrace
        · rw [if_pos hl]
          apply hstep
          · simp [next, hinescape, hl, hk]
          · simp [next, hb]
        · rw [if_neg hl]
          by_cases hr : c = rbrace
          · rw [if_pos hr]
            cases k with
            | zero =>
              have hbad : (next nasties n c).backslashify = true := by
                simp [next, hinescape, hr, hk]
              have hall := backslashify_foldl nasties hbad s
              rw [foldl_cons]
              simp [hall]
            | succ k =>
              have h := hstep k false (by simp [next, hinescape, hr, hk])
                (by simp [next, hb])
              simpa using h
          · rw [if_neg hr]
            apply hstep
            · simp [next, hl, hr, hk]
            · simp [next, hb]

end EscapeCount

section Escape

variable (nasties : WvStringMask)

theorem spelling_text (s : Str) :
    Spelling.text (s.map fun c => (nasty nasties c, c)) =
      s.flatMap fun c => if nasty nasties c then [backslash, c] else [c] := by
  simp [Spelling.text, flatMap_map]

theorem wvtclEscapeStr_eq (s : Str) : wvtclEscapeStr nasties s = (escapeForm nasties s).text := by
  rw [wvtclEscapeStr, escapeForm]
  split
  · rfl
  · have hbraces := EscapeCount.foldl_braces nasties (n := {}) (k := 0) rfl rfl s
    have hcount := EscapeCount.unprintables_foldl nasties {} s
    have hnone : (s.foldl (EscapeCount.next nasties) {}).unprintables = 0 ↔
        ∀ c ∈ s, nasty nasties c = false := by
      rw [hcount]
      simp [countP_eq_zero]
    dsimp only at hbraces ⊢
    rw [hbraces]
    cases hmatch : braces false 0 s with
    | true =>
      by_cases hall : ∀ c ∈ s, nasty nasties c = false
      · rw [if_pos (by simpa using hnone.mpr hall), if_pos rfl, if_pos hall]
        rfl
      · rw [if_neg (by simpa using fun h => hall (hnone.mp h)), if_neg (by simp), if_pos rfl,
          if_neg hall]
        rfl
    | false =>
      rw [if_neg (by simp), if_pos (by simp), if_neg Bool.false_ne_true]
      exact (spelling_text nasties s).symm

theorem escapeForm_value (s : Str) : (escapeForm nasties s).value = s := by
  rw [escapeForm]
  split
  · rename_i h
    exact h.symm
  · split
    · split <;> rfl
    · show (s.map fun c => (nasty nasties c, c)).map Prod.snd = s
      rw [map_map]
      exact map_id s

theorem escapeForm_isQuoted (s : Str) : (escapeForm nasties s).isQuoted = false := by
  rw [escapeForm]
  split
  · rfl
  · split
    · split <;> rfl
    · rfl

theorem escapeForm_fits {nasties splitchars : WvStringMask}
    (h : ∀ c, splitchars.set c = true → nasties.set c = true) (s : Str) :
    (escapeForm nasties s).Fits splitchars := by
  have hsplit : ∀ c, nasty nasties c = false → nasty splitchars c = false := by
    intro c hc
    obtain ⟨halways, hset⟩ : alwaysNasty c = false ∧ nasties.set c = false := by
      simpa [nasty] using hc
    have hnot : splitchars.set c = false := by
      by_contra hs
      rw [h c (by simpa using hs)] at hset
      cases hset
    simp [nasty, halways, hnot]
  rw [escapeForm]
  split
  · rfl
  · rename_i hne
    split
    · rename_i hbraces
      split
      · rename_i hall
        exact ⟨hne, fun c hc => hsplit c (hall c hc)⟩
      · exact hbraces
    · refine ⟨by simpa using hne, ?_⟩
      intro c hc hplain
      obtain ⟨c, -, rfl⟩ := mem_map.mp hc
      exact hsplit c hplain

end Escape

/-! ## Lists that can be read back -/

/-- No split character begins the form in which the string is written: a brace if it is empty
or has nasty characters and matching braces, a backslash if its braces do not match and its
first character is nasty. -/
def Recognizable (nasties splitchars : WvStringMask) (s : Str) : Prop :=
  (s = [] ∨ (braces false 0 s = true ∧ ∃ c ∈ s, nasty nasties c = true) →
    splitchars.set lbrace = false) ∧
  (braces false 0 s = false → (∃ c ∈ s.head?, nasty nasties c = true) →
    splitchars.set backslash = false)

/-- Written in braces, and the brace in front is taken for a split character. -/
def Skipped (nasties splitchars : WvStringMask) (s : Str) : Prop :=
  (s = [] ∨ (braces false 0 s = true ∧ ∃ c ∈ s, nasty nasties c = true)) ∧
    splitchars.set lbrace = true

/-- The scanner finds the string that is written: without the brace in front, because it needs
none and the brace behind it is a split character; without the backslash in front, because the
first character needs none. -/
def Findable (nasties splitchars : WvStringMask) (s : Str) : Prop :=
  (Skipped nasties splitchars s → splitchars.set rbrace = true ∧ s ≠ [] ∧
    s.head? ≠ some quote ∧ ∀ c ∈ s, splitchars.set c = false ∧ c ≠ backslash) ∧
  (braces false 0 s = false → splitchars.set backslash = true →
    ∀ c ∈ s.head?, splitchars.set c = false ∧ c ≠ quote ∧ c ≠ lbrace)

/-- The separator is a split character and not NUL, and a backslash only behind braces that are
split characters. -/
def Separated (nasties splitchars : WvStringMask) (l : List CString) : Prop :=
  ∀ s ∈ l.dropLast, (splitchars.set splitchars.first = true ∧
    (splitchars.first = backslash → Skipped nasties splitchars s.val)) ∧ splitchars.first ≠ 0

/-- Two elements, the first in braces that are split characters. The separator is a backslash that
is none, and makes no difference to the second. -/
def Joined (nasties splitchars : WvStringMask) (l : List CString) : Prop :=
  ∃ s t : CString, l = [s, t] ∧ Skipped nasties splitchars s.val ∧
    splitchars.first = backslash ∧ splitchars.set backslash = false ∧
    (braces false 0 t = false ∨ ∀ c ∈ t.val, nasty nasties c = false) ∧
    ∃ k c w, t.val = replicate k backslash ++ c :: w ∧ nasty nasties c = false ∧ c :: w ≠ [newline]

/-- The last element has braces that do not match and ends in a newline, which is nasty. -/
def Open (nasties : WvStringMask) (l : List CString) : Prop :=
  ∃ s ∈ l.getLast?, braces false 0 s = false ∧ s.val.getLast? = some newline ∧
    nasty nasties newline = true

section Lists

variable {nasties splitchars : WvStringMask}

variable {s : Str} {l : List CString}

theorem escapeForm_starts (h : Recognizable nasties splitchars s)
    (hsplit : ∀ c, splitchars.set c = true → nasties.set c = true) :
    ∀ c ∈ (escapeForm nasties s).text.head?, splitchars.set c = false := by
  have hplain : ∀ c, nasty nasties c = false → splitchars.set c = false := by
    intro c hc
    by_contra hs
    have hset := hsplit c (by simpa using hs)
    simp [nasty, hset] at hc
  intro c hc
  rw [escapeForm] at hc
  split at hc
  · rename_i hnil
    obtain rfl := Option.some.inj hc
    exact h.1 (Or.inl hnil)
  · rename_i hne
    split at hc
    · rename_i hbraces
      split at hc
      · rename_i hall
        exact hplain c (hall c (mem_of_head? hc))
      · rename_i hsome
        obtain rfl := Option.some.inj hc
        apply h.1 (Or.inr ⟨hbraces, ?_⟩)
        simpa using hsome
    · rename_i hbraces
      obtain ⟨d, s, rfl⟩ := exists_cons_of_ne_nil hne
      cases hd : nasty nasties d with
      | true =>
        have hc' : some backslash = some c := by
          simpa [Form.text, Spelling.text, hd] using hc
        obtain rfl := Option.some.inj hc'
        exact h.2 (by simpa using hbraces) ⟨d, rfl, hd⟩
      | false =>
        have hc' : some d = some c := by simpa [Form.text, Spelling.text, hd] using hc
        obtain rfl := Option.some.inj hc'
        exact hplain d hd

/-- The element that `wvtcl_escape` writes for a string. -/
def escaped (hsplit : ∀ c, splitchars.set c = true → nasties.set c = true) {s : Str}
    (h : Recognizable nasties splitchars s) : Written splitchars where
  form := escapeForm nasties s
  fits := escapeForm_fits hsplit s
  starts := escapeForm_starts h hsplit

theorem escapeForm_continued :
    (escapeForm nasties s).continued = true ↔
      braces false 0 s = false ∧ s.getLast? = some newline ∧ nasty nasties newline = true := by
  rw [escapeForm]
  split
  · rename_i hnil
    subst hnil
    simp [Form.continued]
  · split
    · rename_i hbraces
      split <;> simp [Form.continued, hbraces]
    · rename_i hbraces
      rw [Form.continued, getLast?_map]
      cases hlast : s.getLast? with
      | none => simp
      | some c =>
        constructor
        · intro h
          obtain ⟨hnasty, rfl⟩ : nasty nasties c = true ∧ c = newline := by simpa using h
          exact ⟨by simpa using hbraces, rfl, hnasty⟩
        · rintro ⟨-, hc, hnasty⟩
          obtain rfl := Option.some.inj hc
          simp [hnasty]

theorem nul_not_mem_escape (h : (0 : Byte) ∉ s) : (0 : Byte) ∉ (escapeForm nasties s).text := by
  rw [escapeForm]
  split
  · decide
  · split
    · split
      · exact h
      · intro hmem
        have hmem' : (0 : Byte) ∈ lbrace :: s ++ [rbrace] := hmem
        simp only [cons_append, mem_cons, mem_append, not_mem_nil, or_false] at hmem'
        rcases hmem' with h0 | h0 | h0
        · exact absurd h0 (by decide)
        · exact h h0
        · exact absurd h0 (by decide)
    · intro hmem
      obtain ⟨c, hc, h0⟩ := mem_flatMap.mp hmem
      obtain ⟨d, hd, rfl⟩ := mem_map.mp hc
      have h0' : 0 = backslash ∨ 0 = d := by
        split at h0
        · simpa using h0
        · exact Or.inr (by simpa using h0)
      rcases h0' with h0 | rfl
      · exact absurd h0 (by decide)
      · exact h hd

theorem cstr_of_not_mem (h : (0 : Byte) ∉ s) : cstr s = s := by
  rw [cstr, takeWhile_eq_self_iff]
  intro c hc
  have hne : c ≠ 0 := fun e => h (e ▸ hc)
  simpa using hne

theorem cstr_append_nul (h : (0 : Byte) ∉ s) (t : Str) : cstr (s ++ 0 :: t) = s := by
  have hpos : ∀ c ∈ s, decide (c ≠ 0) = true := by
    intro c hc
    have hne : c ≠ 0 := fun e => h (e ▸ hc)
    simpa using hne
  rw [cstr, takeWhile_append_of_pos hpos]
  simp

theorem nul_not_mem_encodeLoop {first : Byte} (hfirst : first ≠ 0) (l : List CString) :
    (0 : Byte) ∉ encodeLoop nasties first (l.map fun s => some s.val) := by
  have hescape : ∀ s : CString, (0 : Byte) ∉ wvtclEscape nasties (some s.val) := by
    intro s
    rw [wvtclEscape, Option.elim_some, wvtclEscapeStr_eq]
    exact nul_not_mem_escape s.2
  induction l with
  | nil => simp [encodeLoop]
  | cons s l ih =>
    cases l with
    | nil => exact hescape s
    | cons s' l =>
      intro hmem
      rcases mem_append.mp hmem with h | h
      · exact hescape s h
      · rcases mem_cons.mp h with h | h
        · exact hfirst h.symm
        · exact ih h

theorem wvtclEscape_written (hsplit : ∀ c, splitchars.set c = true → nasties.set c = true)
    (h : Recognizable nasties splitchars s) :
    wvtclEscape nasties (some s) = (escaped hsplit h).form.text := by
  rw [wvtclEscape, Option.elim_some, wvtclEscapeStr_eq]
  rfl

theorem escapeForm_passed (hsplit : ∀ c, splitchars.set c = true → nasties.set c = true)
    (h : Findable nasties splitchars s) : ∃ before raw after,
      (escapeForm nasties s).text = before ++ (raw ++ after) ∧
      (∀ c ∈ before, splitchars.set c = true) ∧
      Passed splitchars raw s (escapeForm nasties s).continued ∧
      (after = [] ∧ ¬ Skipped nasties splitchars s ∨
        after = [rbrace] ∧ Skipped nasties splitchars s ∧ splitchars.set rbrace = true) := by
  by_cases hrec : Recognizable nasties splitchars s
  · have hpassed := (escaped hsplit hrec).passed (escapeForm_isQuoted nasties s)
    have hvalue : (escaped hsplit hrec).form.value = s := escapeForm_value nasties s
    rw [hvalue] at hpassed
    refine ⟨[], _, [], (append_nil _).symm, by simp, hpassed, Or.inl ⟨rfl, fun hskip => ?_⟩⟩
    exact Bool.false_ne_true ((hrec.1 hskip.1).symm.trans hskip.2)
  · rcases not_and_or.mp hrec with hbrace | hback
    · have hskip : Skipped nasties splitchars s := by simpa [Skipped] using hbrace
      obtain ⟨hr, hne, hquote, hfree⟩ := h.1 hskip
      obtain ⟨hbraces, c, hc, hnasty⟩ := hskip.1.resolve_left hne
      have hform : escapeForm nasties s = .braced s := by
        rw [escapeForm, if_neg hne, if_pos hbraces, if_neg]
        intro hall
        exact Bool.false_ne_true ((hall c hc).symm.trans hnasty)
      rw [hform]
      refine ⟨[lbrace], s, [rbrace], rfl, by simpa using hskip.2, passed_plain hne hquote ?_,
        Or.inr ⟨rfl, hskip, hr⟩⟩
      intro d hd
      obtain ⟨hsplitd, hb⟩ := hfree d hd
      exact ⟨fun e => Bool.false_ne_true (hsplitd.symm.trans (e ▸ hskip.2)), hb, hsplitd⟩
    · obtain ⟨hbraces, d, hd, hnasty, hset⟩ : braces false 0 s = false ∧
          ∃ c, s.head? = some c ∧ nasty nasties c = true ∧ splitchars.set backslash = true := by
        simpa using hback
      obtain ⟨hfree, hquote, hl⟩ := h.2 hbraces hset d hd
      have hb : d ≠ backslash := fun e => Bool.false_ne_true (hfree.symm.trans (e ▸ hset))
      obtain ⟨s, rfl⟩ := head?_eq_some_iff.mp hd
      let cs : Spelling := s.map fun c => (nasty nasties c, c)
      have hform : escapeForm nasties (d :: s) = .backslashed ((true, d) :: cs) := by
        simp [escapeForm, hbraces, hnasty, cs]
      have hfits : ((true, d) :: cs) ≠ [] ∧ ∀ c ∈ (true, d) :: cs, c.1 = false →
          nasty splitchars c.2 = false := by
        have hfits := escapeForm_fits hsplit (d :: s)
        rw [hform] at hfits
        exact hfits
      have hpassed : Passed splitchars (Spelling.text ((false, d) :: cs)) _ _ := passed_spelled
        (cons_ne_nil _ _) (by simpa using hquote) ?_
      · refine ⟨[backslash], Spelling.text ((false, d) :: cs), [], ?_, by simpa using hset, ?_,
          Or.inl ⟨rfl, fun hskip => ?_⟩⟩
        · rw [hform, append_nil]
          rfl
        · have hvalue : Spelling.value ((false, d) :: cs) = d :: s := by
            simp [Spelling.value, cs, Function.comp_def]
          have hlast : (((false, d) :: cs).getLast? == some (true, newline)) =
              (((true, d) :: cs).getLast? == some (true, newline)) := by
            cases hcs : cs with
            | nil =>
              obtain rfl : s = [] := by simpa [cs] using hcs
              have hd : d ≠ newline := by
                rintro rfl
                exact absurd hbraces (by decide)
              simpa using hd
            | cons c cs => rw [getLast?_cons_cons, getLast?_cons_cons]
          rw [hlast, hvalue] at hpassed
          rw [hform]
          exact hpassed
        · obtain hnil | ⟨hmatch, -⟩ := hskip.1
          · exact cons_ne_nil d s hnil
          · exact Bool.false_ne_true (hbraces.symm.trans hmatch)
      · rintro c hc he
        rcases mem_cons.mp hc with rfl | hc
        · exact ⟨hl, hb, hfree⟩
        · exact inWord_of_not_nasty splitchars (hfits.2 c (mem_cons_of_mem _ hc) he)

theorem not_continued_of_skipped (h : Skipped nasties splitchars s) :
    (escapeForm nasties s).continued = false := by
  by_contra hcont
  obtain ⟨hbraces, hlast, -⟩ := escapeForm_continued.mp (by simpa using hcont)
  rcases h.1 with rfl | ⟨hmatch, -⟩
  · cases hlast
  · exact Bool.false_ne_true (hbraces.symm.trans hmatch)

section Found

variable (hsplit : ∀ c, splitchars.set c = true → nasties.set c = true) {lead : Str}
  (hlead : ∀ c ∈ lead, splitchars.set c = true)

include hsplit hlead

/-- At the end of the text. -/
theorem decode_last (h : Findable nasties splitchars s) :
    wvtclDecode splitchars true (lead ++ (escapeForm nasties s).text) =
      if (escapeForm nasties s).continued then [] else [s] := by
  obtain ⟨before, raw, after, htext, hbefore, hpassed, hafter⟩ := escapeForm_passed hsplit h
  have hfront : ∀ c ∈ lead ++ before, splitchars.set c = true := by
    simpa [or_imp, forall_and] using And.intro hlead hbefore
  rw [htext, ← append_assoc]
  rcases hafter with ⟨rfl, -⟩ | ⟨rfl, hskip, hr⟩
  · rw [append_nil]
    have hword := hpassed.getword_last hfront
    split
    · rename_i hcont
      rw [if_pos hcont] at hword
      exact wvtclDecode_of_none hword
    · rename_i hcont
      rw [if_neg hcont] at hword
      rw [wvtclDecode_of_some hword, wvtclDecode_of_none rfl]
  · have hend : wvtclGetword splitchars true [rbrace] = none := by
      simp [wvtclGetword, hr]
    rw [wvtclDecode_of_some (hpassed.getword_item hfront hr (by decide) []),
      wvtclDecode_of_none hend, not_continued_of_skipped hskip]
    rfl

/-- In front of another character. -/
theorem decode_item (h : Findable nasties splitchars s) {f : Byte}
    (hf : splitchars.set f = true ∧ (f = backslash → Skipped nasties splitchars s)) (t : Str) :
    ∃ more, (∀ c ∈ more, splitchars.set c = true) ∧
      wvtclDecode splitchars true (lead ++ ((escapeForm nasties s).text ++ f :: t)) =
        s :: wvtclDecode splitchars true (more ++ t) := by
  obtain ⟨before, raw, after, htext, hbefore, hpassed, hafter⟩ := escapeForm_passed hsplit h
  have hfront : ∀ c ∈ lead ++ before, splitchars.set c = true := by
    simpa [or_imp, forall_and] using And.intro hlead hbefore
  have hwhole : lead ++ ((escapeForm nasties s).text ++ f :: t) =
      (lead ++ before) ++ (raw ++ (after ++ f :: t)) := by simp [htext]
  rw [hwhole]
  rcases hafter with ⟨rfl, hskip⟩ | ⟨rfl, -, hr⟩
  · refine ⟨[f], by simpa using hf.1, ?_⟩
    exact wvtclDecode_of_some (hpassed.getword_item hfront hf.1 (fun e => hskip (hf.2 e)) t)
  · refine ⟨[rbrace, f], by simpa using ⟨hr, hf.1⟩, ?_⟩
    exact wvtclDecode_of_some (hpassed.getword_item hfront hr (by decide) (f :: t))

/-- The separator is taken for a part of the element. -/
theorem decode_runs_on (h : Findable nasties splitchars s)
    (hskip : ¬ Skipped nasties splitchars s) {f : Byte}
    (hf : splitchars.set f = true → f = backslash) (t : Str) (l : List Str) :
    wvtclDecode splitchars true (lead ++ ((escapeForm nasties s).text ++ f :: t)) ≠ s :: l := by
  obtain ⟨before, raw, after, htext, hbefore, hpassed, hafter⟩ := escapeForm_passed hsplit h
  have hfront : ∀ c ∈ lead ++ before, splitchars.set c = true := by
    simpa [or_imp, forall_and] using And.intro hlead hbefore
  obtain ⟨rfl, -⟩ := hafter.resolve_right fun hclosed => hskip hclosed.2.1
  have hwhole : lead ++ ((escapeForm nasties s).text ++ f :: t) =
      (lead ++ before) ++ (raw ++ f :: t) := by simp [htext]
  rw [hwhole]
  intro hl
  cases hword : wvtclGetword splitchars true ((lead ++ before) ++ (raw ++ f :: t)) with
  | none =>
    rw [wvtclDecode_of_none hword] at hl
    cases hl
  | some r =>
    rw [wvtclDecode_of_some hword] at hl
    exact hpassed.getword_runs_on hfront hf t hword (cons.inj hl).1

end Found

theorem encodeLoop_cons (first : Byte) (s s' : CString) (l : List CString) :
    encodeLoop nasties first ((s :: s' :: l).map fun s => some s.val) =
      (escapeForm nasties s.val).text ++
        first :: encodeLoop nasties first ((s' :: l).map fun s => some s.val) := by
  rw [← wvtclEscapeStr_eq]
  rfl

theorem decode_encodeLoop_iff (hsplit : ∀ c, splitchars.set c = true → nasties.set c = true)
    {first : Byte} (hfind : ∀ s ∈ l, Findable nasties splitchars s.val)
    (hfirst : splitchars.set first = true ∨ ∀ s ∈ l.dropLast, ¬ Skipped nasties splitchars s.val)
    {lead : Str} (hlead : ∀ c ∈ lead, splitchars.set c = true) :
    wvtclDecode splitchars true
        (lead ++ encodeLoop nasties first (l.map fun s => some s.val)) = l.map Subtype.val ↔
      (∀ s ∈ l.dropLast, splitchars.set first = true ∧
        (first = backslash → Skipped nasties splitchars s.val)) ∧ ¬ Open nasties l := by
  induction l generalizing lead with
  | nil =>
    have hnone : wvtclGetword splitchars true (lead ++ []) = none := by
      rw [append_nil, wvtclGetword, dropWhile_eq_nil_iff.mpr hlead]
    refine iff_of_true (wvtclDecode_of_none hnone) ⟨by simp, by simp [Open]⟩
  | cons s l ih =>
    have hs := hfind s mem_cons_self
    cases l with
    | nil =>
      have hopen : Open nasties [s] ↔ (escapeForm nasties s.val).continued = true := by
        refine Iff.trans ?_ escapeForm_continued.symm
        simp [Open]
      have htext : encodeLoop nasties first ([s].map fun s => some s.val) =
          (escapeForm nasties s.val).text := wvtclEscapeStr_eq nasties s.val
      rw [htext, decode_last hsplit hlead hs, hopen]
      cases (escapeForm nasties s.val).continued <;> simp
    | cons s' l =>
      have hopen : Open nasties (s :: s' :: l) ↔ Open nasties (s' :: l) := by
        rw [Open, Open, getLast?_cons_cons]
      rw [dropLast_cons_cons, forall_mem_cons] at hfirst
      rw [encodeLoop_cons, dropLast_cons_cons, forall_mem_cons, hopen]
      by_cases hf : splitchars.set first = true ∧
          (first = backslash → Skipped nasties splitchars s.val)
      · obtain ⟨more, hmore, hdecode⟩ := decode_item hsplit hlead hs hf
          (encodeLoop nasties first ((s' :: l).map fun s => some s.val))
        have hrest := ih (fun s hs => hfind s (mem_cons_of_mem _ hs))
          (hfirst.imp_right And.right) hmore
        have hvalues : (s :: s' :: l).map Subtype.val = s.val :: (s' :: l).map Subtype.val := rfl
        rw [hdecode, hvalues, cons.injEq, hrest]
        exact ⟨fun h => ⟨⟨hf, h.2.1⟩, h.2.2⟩, fun h => ⟨rfl, h.1.2, h.2⟩⟩
      · have hskip : ¬ Skipped nasties splitchars s.val := by
          rcases hfirst with hset | hnone
          · exact fun hskip => hf ⟨hset, fun _ => hskip⟩
          · exact hnone.1
        refine iff_of_false ?_ fun h => hf h.1.1
        refine decode_runs_on hsplit hlead hs hskip (fun hset => ?_) _ _
        by_contra hb
        exact hf ⟨hset, fun e => absurd e hb⟩

theorem encode_eq (h : ∀ s ∈ l.dropLast, splitchars.first ≠ 0) :
    wvtclEncode (l.map fun s => some s.val) nasties splitchars =
      encodeLoop nasties splitchars.first (l.map fun s => some s.val) := by
  rw [wvtclEncode, cstr_of_not_mem]
  cases l with
  | nil => simp [encodeLoop]
  | cons s l =>
    cases l with
    | nil =>
      rw [map_cons, map_nil, encodeLoop, wvtclEscape, Option.elim_some, wvtclEscapeStr_eq]
      exact nul_not_mem_escape s.2
    | cons s' l => exact nul_not_mem_encodeLoop (h s mem_cons_self) _

/-- The text ends with the first element. -/
theorem decode_cut (hsplit : ∀ c, splitchars.set c = true → nasties.set c = true)
    {s s' : CString} (hs : Findable nasties splitchars s.val) (hzero : splitchars.first = 0) :
    wvtclDecode splitchars true
      (wvtclEncode ((s :: s' :: l).map fun s => some s.val) nasties splitchars) ≠
        (s :: s' :: l).map Subtype.val := by
  have hlead : ∀ c ∈ ([] : Str), splitchars.set c = true := by simp
  have hlast := decode_last hsplit hlead hs
  rw [nil_append] at hlast
  rw [wvtclEncode, encodeLoop_cons, hzero, cstr_append_nul (nul_not_mem_escape s.2), hlast]
  split <;> simp

theorem text_spelled (hne : s ≠ [])
    (h : braces false 0 s = false ∨ ∀ c ∈ s, nasty nasties c = false) :
    (escapeForm nasties s).text = Spelling.text (s.map fun c => (nasty nasties c, c)) := by
  rw [escapeForm, if_neg hne]
  split
  · rename_i hbraces
    have hall := h.resolve_left (by simp [hbraces])
    have hmap : (s.map fun c => (nasty nasties c, c)) = Spelling.plain s := by
      apply map_congr_left
      intro c hc
      rw [hall c hc]
    rw [if_pos hall, hmap, Spelling.plain_text]
    rfl
  · rfl

/-- A backslash in front of the first character that has none. -/
theorem backslash_text (k : Nat) (c : Byte) (cs : Spelling) :
    backslash :: Spelling.text (replicate k (true, backslash) ++ (false, c) :: cs) =
      Spelling.text (replicate k (true, backslash) ++ (true, c) :: cs) := by
  induction k with
  | zero => rfl
  | succ k ih => exact congrArg (fun t => backslash :: backslash :: t) ih

theorem decode_joined (hsplit : ∀ c, splitchars.set c = true → nasties.set c = true)
    (hfind : ∀ s ∈ l, Findable nasties splitchars s.val) (h : Joined nasties splitchars l)
    (hopen : ¬ Open nasties l) :
    wvtclDecode splitchars true (encodeLoop nasties splitchars.first (l.map fun s => some s.val)) =
      l.map Subtype.val := by
  obtain ⟨s, t, rfl, hskip, hfirst, hset, hspelled, k, c, w, htext, hc, hne⟩ := h
  let spell : Byte → Bool × Byte := fun c => (nasty nasties c, c)
  let cs : Spelling := replicate k (true, backslash) ++ (true, c) :: w.map spell
  have hpassed : Passed splitchars cs.text cs.value (cs.getLast? == some (true, newline)) := by
    refine passed_spelled (by simp [cs]) ?_ ?_
    · cases k <;> simpa [cs, replicate_succ] using hset
    · rintro ⟨_, d⟩ hd rfl
      obtain ⟨e, -, hpair⟩ : ∃ e ∈ w, spell e = (false, d) := by simpa [cs] using hd
      obtain ⟨hnasty, rfl⟩ := Prod.mk.inj hpair
      obtain ⟨hl, -, hb, -, hkept⟩ := not_nasty nasties hnasty
      refine ⟨hl, hb, ?_⟩
      by_contra hset
      exact Bool.false_ne_true (hkept.symm.trans (hsplit e (by simpa using hset)))
  have hvalue : cs.value = t.val := by simp [cs, spell, Spelling.value, htext, Function.comp_def]
  have hends : (cs.getLast? == some (true, newline)) = false := by
    rw [beq_eq_false_iff_ne]
    intro hlast
    rcases eq_nil_or_concat' w with rfl | ⟨w, d, rfl⟩
    · exact hne (by simpa [cs] using hlast)
    · have hcs : cs = (replicate k (true, backslash) ++ (true, c) :: w.map spell) ++ [spell d] := by
        simp [cs]
      rw [hcs, getLast?_concat] at hlast
      obtain ⟨hnasty, rfl⟩ := Prod.mk.inj (Option.some.inj hlast)
      have hend : t.val = (replicate k backslash ++ c :: w) ++ [newline] := by simp [htext]
      refine hopen ⟨t, rfl, hspelled.resolve_right fun hall => ?_, hend ▸ getLast?_concat, hnasty⟩
      rw [hall newline (by simp [htext])] at hnasty
      cases hnasty
  have hlead : ∀ c ∈ ([] : Str), splitchars.set c = true := by simp
  obtain ⟨before, raw, after, hform, hbefore, hs, hafter⟩ :=
    escapeForm_passed hsplit (hfind s mem_cons_self)
  obtain ⟨rfl, -, hr⟩ := hafter.resolve_left fun hplain => hplain.2 hskip
  have hsecond : backslash :: (escapeForm nasties t.val).text = cs.text := by
    rw [text_spelled (by simp [htext]) hspelled, ← backslash_text, htext]
    have hb : nasty nasties backslash = true := rfl
    simp [hc, hb, spell]
  have hwhole : encodeLoop nasties splitchars.first ([s, t].map fun s => some s.val) =
      before ++ (raw ++ rbrace :: cs.text) := by
    rw [encodeLoop_cons, hfirst, hform, ← hsecond, ← wvtclEscapeStr_eq]
    simp
    rfl
  have hrbrace : ∀ c ∈ [rbrace], splitchars.set c = true := by simpa using hr
  have hword := hpassed.getword_last hrbrace
  rw [hends, if_neg Bool.false_ne_true, hvalue] at hword
  rw [hwhole, wvtclDecode_of_some (hs.getword_item hbefore hr (by decide) _)]
  exact congrArg (s.val :: ·) ((wvtclDecode_of_some hword).trans
    (congrArg (t.val :: ·) (wvtclDecode_of_none rfl)))

/-- A list is read back if the scanner finds its elements, with a separator between them, and it is
not left open. Of lists whose elements it finds only these are, if the separator is a split
character or no element is in braces that are. -/
theorem decode_encode_iff (l : List CString) (nasties splitchars : WvStringMask)
    (hsplit : ∀ c, splitchars.set c = true → nasties.set c = true) :
    let decoded := wvtclDecode splitchars true
      (wvtclEncode (l.map fun s => some s.val) nasties splitchars)
    let findable := ∀ s ∈ l, Findable nasties splitchars s.val
    (findable ∧ (Separated nasties splitchars l ∨ Joined nasties splitchars l) ∧
        ¬ Open nasties l → decoded = l.map Subtype.val) ∧ (decoded = l.map Subtype.val → findable →
        (splitchars.set splitchars.first = true ∨
          ∀ s ∈ l.dropLast, ¬ Skipped nasties splitchars s.val) →
        Separated nasties splitchars l ∧ ¬ Open nasties l) := by
  intro decoded findable
  have hlead : ∀ c ∈ ([] : Str), splitchars.set c = true := by simp
  have hwhole : (∀ s ∈ l.dropLast, splitchars.first ≠ 0) → decoded = wvtclDecode splitchars true
        (encodeLoop nasties splitchars.first (l.map fun s => some s.val)) :=
    fun h => congrArg (wvtclDecode splitchars true) (encode_eq h)
  constructor
  · rintro ⟨hfind, hsep | hjoined, hopen⟩
    · have hfirst : splitchars.set splitchars.first = true ∨
          ∀ s ∈ l.dropLast, ¬ Skipped nasties splitchars s.val := by
        by_cases hset : splitchars.set splitchars.first = true
        · exact Or.inl hset
        · exact Or.inr fun s hs => absurd (hsep s hs).1.1 hset
      rw [hwhole fun s hs => (hsep s hs).2]
      exact (decode_encodeLoop_iff hsplit hfind hfirst hlead).mpr
        ⟨fun s hs => (hsep s hs).1, hopen⟩
    · obtain ⟨-, -, -, -, hfirst, -⟩ := id hjoined
      rw [hwhole fun _ _ => hfirst ▸ by decide]
      exact decode_joined hsplit hfind hjoined hopen
  · intro hl hfind hfirst
    by_cases hzero : ∀ s ∈ l.dropLast, splitchars.first ≠ 0
    · rw [hwhole hzero] at hl
      obtain ⟨hsep, hopen⟩ := (decode_encodeLoop_iff hsplit hfind hfirst hlead).mp hl
      exact ⟨fun s hs => ⟨hsep s hs, hzero s hs⟩, hopen⟩
    · have hcut : splitchars.first = 0 := by
        by_contra hne
        exact hzero fun _ _ => hne
      cases l with
      | nil => simp at hzero
      | cons s l =>
        cases l with
        | nil => simp at hzero
        | cons s' l => exact absurd hl (decode_cut hsplit (hfind s mem_cons_self) hcut)

/-- `a"b`, `}\` and `{ c`, with the space and the braces for split characters. -/
theorem decode_encode_braces :
    let l : List Str := [[97, 34, 98], [125, 92], [123, 32, 99]]
    let splitchars := WvStringMask.ofString (some [32, 123, 125])
    wvtclEncode (l.map some) splitchars splitchars =
        [123, 97, 34, 98, 125, 32, 92, 125, 92, 92, 32, 92, 123, 92, 32, 99] ∧
      wvtclDecode splitchars true (wvtclEncode (l.map some) splitchars splitchars) = l := by
  refine ⟨by decide, (decode_encode_iff [⟨[97, 34, 98], by decide⟩, ⟨[125, 92], by decide⟩,
    ⟨[123, 32, 99], by decide⟩] (.ofString (some [32, 123, 125]))
    (.ofString (some [32, 123, 125])) fun _ h => h).1 ⟨?_, Or.inl ?_, ?_⟩⟩
  · simp only [Findable, Skipped]
    decide
  · simp only [Separated, Skipped]
    decide
  · simp only [Open]
    decide

/-- The list of `}` and a newline alone, with the default sets: nothing is read back. -/
theorem decode_encode_fails :
    wvtclDecode wvtclNastySpaces true
      (wvtclEncode [some [125, 10]] wvtclNastySpaces wvtclNastySpaces) = [] ∧
    wvtclEncode [some [125, 10]] wvtclNastySpaces wvtclNastySpaces = [92, 125, 92, 10] :=
  ⟨wvtclDecode_of_none (by decide), by decide⟩

end Lists

end WvStreams
