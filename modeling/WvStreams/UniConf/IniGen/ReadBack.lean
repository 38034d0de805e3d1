import WvStreams.UniConf.IniGen.Legible

/-!
# Reading lines back

A line whose section name, key or value are legible is read as it was meant (`readWords_line`),
and a file of such lines is loaded line by line (`refresh_texts`).
-/

namespace WvStreams

open Lib List UniConfKey

namespace UniIniGen

theorem trimmed_append {p q : Str} (hp : Trimmed p) (hq : Trimmed q) (hpne : p ≠ [])
    (hqne : q ≠ []) (m : Str) : Trimmed (p ++ m ++ q) := by
  constructor
  · intro c hc
    obtain ⟨d, p, rfl⟩ := exists_cons_of_ne_nil hpne
    exact hp.head c hc
  · intro c hc
    rw [getLast?_append_of_ne_nil _ hqne] at hc
    exact hq.last c hc

theorem readEntry_stands (st : Loading) {p q value : Str} {key : UniConfKey}
    (hp : StandsForKey p key) (hq : Stands lineStops q value) :
    readEntry st (p ++ [32, 61, 32] ++ q) =
      some ⟨(st.newgen.set (prepend key st.section_) (some value)).1, st.section_⟩ := by
  obtain ⟨hhead, name, hname, hne, rfl⟩ := hp
  have hequals : ∀ c, (WvStringMask.ofString (some [61])).set c = true → c = 61 := by
    intro c hc
    simpa [WvStringMask.ofString] using hc
  have hpass : Passes (.ofString (some [61])) (p ++ [32]) := by
    refine Passes.append ?_ (passes_plain (by decide))
    apply hname.passes
    intro c hc
    simp [keyStops, hequals c hc]
  have hword : wvtclGetword (.ofString (some [61])) false (p ++ [32, 61, 32] ++ q) =
      some (p ++ [32], 61 :: 32 :: q) := by
    have htext : p ++ [32, 61, 32] ++ q = [] ++ (p ++ [32] ++ 61 :: (32 :: q)) := by simp
    rw [htext]
    refine wvtclGetword_passes (by simp) (by simp) ?_ hpass (by decide) (by decide) (32 :: q)
    intro c hc
    obtain ⟨d, p, rfl⟩ := exists_cons_of_ne_nil hname.ne_nil
    have hsep := hhead c hc
    constructor
    · by_contra hset
      apply hsep
      rw [hequals c (by simpa using hset)]
      decide
    · rintro rfl
      exact hsep (by decide)
  rw [readEntry, hword]
  dsimp only
  rw [if_neg (cons_ne_nil _ _), hname.trimmed.trimString_space, hname.unescape]
  dsimp only [Option.bind_eq_bind, Option.bind_some, tail_cons]
  rw [if_neg hne, hq.trimmed.trimString_cons_space hq.ne_nil, hq.unescape]
  rfl

theorem readWord_entry (st : Loading) {p q value : Str} {key : UniConfKey}
    (hp : StandsForKey p key) (hq : Stands lineStops q value) :
    readWord st (p ++ [32, 61, 32] ++ q) =
      some ⟨(st.newgen.set (prepend key st.section_) (some value)).1, st.section_⟩ := by
  obtain ⟨name, hname, -, -⟩ := hp.stands
  have htrim := trimmed_append hname.trimmed hq.trimmed hname.ne_nil hq.ne_nil [32, 61, 32]
  have hhead : ∀ c, (p ++ [32, 61, 32] ++ q).head? = some c → c ∉ keyPlace.sepchars := by
    intro c hc
    apply hp.head
    obtain ⟨d, p, rfl⟩ := exists_cons_of_ne_nil hname.ne_nil
    exact hc
  rw [readWord, htrim.trimString, if_neg (by simp), if_neg, if_neg, trimEnd_eq_self htrim.last]
  · exact readEntry_stands st hp hq
  · rintro ⟨h, -⟩
    exact hhead 91 h (by decide)
  · intro h
    exact hhead 35 h (by decide)

theorem readWord_section (st : Loading) {p name : Str} (hp : trimString p = p)
    (hname : wvtclUnescape p = some name) :
    readWord st (91 :: p ++ [93]) = some ⟨st.newgen, UniConfKey.ofString name⟩ := by
  have hlast : (91 :: p ++ [93]).getLast? = some 93 := getLast?_concat
  have htrim : Trimmed (91 :: p ++ [93]) := by
    constructor
    · intro c hc
      obtain rfl : 91 = c := Option.some.inj hc
      decide
    · intro c hc
      obtain rfl : 93 = c := Option.some.inj (hlast.symm.trans hc)
      decide
  have hinner : (91 :: p ++ [93]).tail.dropLast = p := by simp
  have hcomment : (91 :: p ++ [93]).head? ≠ some 35 :=
    fun h => absurd (Option.some.inj h) (by decide)
  rw [readWord, htrim.trimString, if_neg (by simp), if_neg hcomment, if_pos ⟨rfl, hlast⟩, hinner, hp,
    hname]
  rfl

namespace Line

def load (st : Loading) : Line → Loading
  | section_ key => ⟨st.newgen, key⟩
  | entry key value =>
    ⟨(st.newgen.set (prepend key st.section_) (some value)).1, st.section_⟩

def Readable : Line → Prop
  | section_ key => UniConfKey.Sliced key ∧
      (key = [] ∨ Legible sectionPlace lineStops (printable key))
  | entry key value => UniConfKey.Sliced key ∧
      (key = [] ∨ Legible keyPlace keyStops (printable key)) ∧
      value ≠ [] ∧ Legible valuePlace lineStops value

/-- What precedes the word. -/
def lead : Line → Str
  | section_ _ => [newline]
  | entry _ _ => []

def word : Line → Str
  | section_ key => 91 :: write sectionPlace (printable key) ++ [93]
  | entry key value => keyText key ++ [32, 61, 32] ++ write valuePlace value

theorem text_eq (line : Line) : line.text = line.lead ++ (line.word ++ [newline]) := by
  cases line with
  | section_ key => simp [text, lead, word, printsection]
  | entry key value => simp [text, lead, word, printkey]

theorem lead_splits (line : Line) : ∀ c ∈ line.lead, wvtclNastyNewlines.set c = true := by
  cases line with
  | section_ key => simp [lead, newline_splits]
  | entry key value => simp [lead]

/-- The word is found, and does what the line does. -/
structure Reads (line : Line) : Prop where
  ne_nil : line.word ≠ []
  head : ∀ c ∈ line.word.head?, wvtclNastyNewlines.set c = false ∧ c ≠ quote
  passes : Passes wvtclNastyNewlines line.word
  reads : ∀ st, readWord st line.word = some (line.load st)

theorem reads_section {key : UniConfKey} {p : Str}
    (hp : p = write sectionPlace key.printable) (hpass : Passes wvtclNastyNewlines p)
    (htrim : trimString p = p) (hname : wvtclUnescape p = some key.printable)
    (hkey : key.Sliced) : Reads (section_ key) := by
  subst hp
  refine ⟨cons_ne_nil _ _, ?_, ?_, ?_⟩
  · intro c hc
    obtain rfl : 91 = c := Option.some.inj hc
    decide
  · have hopen : Passes wvtclNastyNewlines [91] := passes_plain (by decide)
    have hclose : Passes wvtclNastyNewlines [93] := passes_plain (by decide)
    exact (hopen.append hpass).append hclose
  · intro st
    rw [word, readWord_section st htrim hname, ofString_printable hkey]
    rfl

theorem reads_entry {key : UniConfKey} {value : Str} (hp : StandsForKey (keyText key) key)
    (hq : Stands lineStops (write valuePlace value) value) : Reads (entry key value) := by
  obtain ⟨name, hname, -, -⟩ := hp.stands
  obtain ⟨d, p, htext⟩ := exists_cons_of_ne_nil hname.ne_nil
  have hnewlines : ∀ c, wvtclNastyNewlines.set c = true → keyStops c = true := by
    intro c hc
    have hstop : lineStops c = true := hc
    rw [keyStops, hstop, Bool.true_or]
  refine ⟨?_, ?_, ?_, ?_⟩
  · rw [word, htext]
    exact cons_ne_nil _ _
  · intro c hc
    have hc' : c ∈ (keyText key).head? := by
      rw [word, htext] at hc
      rw [htext]
      exact hc
    have hsep := hp.head c hc'
    constructor
    · by_contra hset
      have hstop : lineStops c = true := by simpa [lineStops] using hset
      rcases lineStops_cases hstop with rfl | rfl
      · exact hsep (by decide)
      · exact hsep (by decide)
    · rintro rfl
      exact hsep (by decide)
  · have hequals : Passes wvtclNastyNewlines [32, 61, 32] := passes_plain (by decide)
    exact ((hname.passes _ hnewlines).append hequals).append (hq.passes _ fun _ hc => hc)
  · exact fun st => readWord_entry st hp hq

theorem Readable.reads {line : Line} (h : line.Readable) : line.Reads := by
  cases line with
  | section_ key =>
    obtain ⟨hkey, hlegible⟩ := h
    by_cases hnil : key = []
    · subst hnil
      exact reads_section (p := []) rfl (fun _ _ => rfl) rfl rfl hkey
    · have hstands := stands_write sectionStops_nasty (by decide) (by decide)
        (printable_ne_nil hkey hnil) (hlegible.resolve_left hnil)
      exact reads_section rfl (hstands.passes _ fun _ hc => hc) hstands.trimmed.trimString
        hstands.unescape hkey
  | entry key value =>
    obtain ⟨hkey, hlegible, hne, hvalue⟩ := h
    exact reads_entry (standsForKey hkey hlegible)
      (stands_write valueStops_nasty (by decide) (by decide) hne hvalue)

end Line

theorem readWords_line {line : Line} (h : line.Readable) (st : Loading) {lead : Str}
    (hlead : ∀ c ∈ lead, wvtclNastyNewlines.set c = true) (rest : Str) :
    readWords st (lead ++ (line.text ++ rest)) = readWords (line.load st) (newline :: rest) := by
  obtain ⟨hne, hhead, hpasses, hreads⟩ := h.reads
  have htext : lead ++ (line.text ++ rest) =
      (lead ++ line.lead) ++ (line.word ++ newline :: rest) := by
    rw [line.text_eq]
    simp
  have hall : ∀ c ∈ lead ++ line.lead, wvtclNastyNewlines.set c = true := by
    exact forall_mem_append.mpr ⟨hlead, line.lead_splits⟩
  have hword := wvtclGetword_passes hall hne hhead hpasses newline_splits (by decide) rest
  rw [htext, readWords_of_some hword, hreads]
  rfl

theorem readWords_texts {ls : List Line} (h : ∀ line ∈ ls, line.Readable) (st : Loading)
    (lead : Str) (hlead : ∀ c ∈ lead, wvtclNastyNewlines.set c = true) :
    ∃ left, (∀ c ∈ left, wvtclNastyNewlines.set c = true) ∧
      readWords st (lead ++ texts ls) = some (ls.foldl Line.load st, left) := by
  induction ls generalizing st lead with
  | nil =>
    refine ⟨lead, hlead, ?_⟩
    have htext : lead ++ texts [] = lead := append_nil lead
    rw [htext, readWords_of_none (wvtclGetword_splits hlead)]
    rfl
  | cons line ls ih =>
    obtain ⟨hline, hls⟩ := forall_mem_cons.mp h
    have htext : texts (line :: ls) = line.text ++ texts ls := flatMap_cons
    rw [htext, readWords_line hline st hlead]
    exact ih hls (line.load st) [newline] (by simp [newline_splits])

theorem skipLines_nil (st : Loading) : skipLines st [] = some st.newgen := by
  rw [skipLines, dif_pos rfl]

theorem skipLines_of_none {st : Loading} {left : Str} (rest : Str) (hne : left ≠ [])
    (hrest : (left.dropWhile (· ≠ newline)).tail = rest)
    (h : wvtclGetword wvtclNastyNewlines false rest = none) :
    skipLines st left = skipLines st rest := by
  subst hrest
  have hread : readWords st (left.dropWhile (· ≠ newline)).tail = _ := readWords_of_none h
  rw [skipLines, dif_neg hne]
  split
  · rename_i h'
    rw [hread] at h'
    cases h'
  · rename_i h'
    rw [hread] at h'
    cases h'
    rfl

theorem skipLines_splits (st : Loading) {left : Str}
    (h : ∀ c ∈ left, wvtclNastyNewlines.set c = true) : skipLines st left = some st.newgen := by
  induction hn : left.length using Nat.strong_induction_on generalizing left with
  | _ n ih =>
    subst hn
    by_cases hne : left = []
    · rw [hne, skipLines_nil]
    · have hsuffix : (left.dropWhile (· ≠ newline)).tail <:+ left :=
        (tail_suffix _).trans (dropWhile_suffix _)
      have hrest : ∀ c ∈ (left.dropWhile (· ≠ newline)).tail, wvtclNastyNewlines.set c = true :=
        fun c hc => h c (hsuffix.subset hc)
      have hshort : (left.dropWhile (· ≠ newline)).tail.length < left.length := by
        have hdrop := (dropWhile_suffix (fun c => decide (c ≠ newline)) (l := left)).length_le
        have hpos := length_pos_iff.mpr hne
        rw [length_tail]
        omega
      rw [skipLines_of_none _ hne rfl (wvtclGetword_splits hrest)]
      exact ih _ hshort hrest rfl

theorem lined_texts (ls : List Line) : Lined (texts ls) := by
  induction ls with
  | nil => exact Or.inl rfl
  | cons line ls ih =>
    have htext : texts (line :: ls) = line.text ++ texts ls := flatMap_cons
    rcases ih with hnil | hlast
    · rw [htext, hnil, append_nil, line.text_eq, ← append_assoc]
      exact lined_concat _
    · right
      have hne : texts ls ≠ [] := by
        intro hnil
        rw [hnil] at hlast
        cases hlast
      rw [htext, getLast?_append_of_ne_nil _ hne, hlast]

theorem refresh_texts {ls : List Line} (h : ∀ line ∈ ls, line.Readable) :
    refresh (texts ls) = some (ls.foldl Line.load start).newgen := by
  obtain ⟨left, hleft, hread⟩ := readWords_texts h start [] (by simp)
  rw [nil_append] at hread
  rw [refresh, readLines_eq start (lined_texts ls), hread]
  exact skipLines_splits _ hleft

end UniIniGen

end WvStreams
