import WvStreams.Strings.StrUtils
import WvStreams.Strings.TclList
import WvStreams.UniConf.TempGen

/-!
# `UniIniGen::save`

The text of an `.ini` file: for the root and for each of its children a section with the keys
below it that have a value. `save_eq` takes it apart into the lines it is made of.
-/

namespace WvStreams

open Lib List

namespace UniIniGen

/-- The loop of `absolutely_needs_escape`, with its end. -/
def needsEscapeLoop (sepchars : Str) (numbraces : Nat) (inescape inspace : Bool) : Str → Bool
  | [] => inescape || inspace || numbraces != 0
  | c :: s =>
    if inescape then needsEscapeLoop sepchars numbraces false (isspace c) s
    else if numbraces = 0 ∧ c ∈ sepchars then true
    else if c = backslash then needsEscapeLoop sepchars numbraces true (isspace c) s
    else if c = lbrace then needsEscapeLoop sepchars (numbraces + 1) false (isspace c) s
    else if c = rbrace then
      -- `numbraces < 0`: mismatched braces
      if numbraces = 0 then false
      else needsEscapeLoop sepchars (numbraces - 1) false (isspace c) s
    else needsEscapeLoop sepchars numbraces false (isspace c) s

def absolutelyNeedsEscape (s sepchars : Str) : Bool :=
  (s.head?.map isspace).getD false || needsEscapeLoop sepchars 0 false false s

/-- A position in the file: the characters that make escaping necessary there, and those that
are nasty there. -/
structure Place where
  sepchars : Str
  nasties : WvStringMask

def write (place : Place) (s : Str) : Str :=
  if absolutelyNeedsEscape s place.sepchars then wvtclEscapeStr place.nasties s else s

def sectionPlace : Place := ⟨[13, 10, 91, 93], .ofString (some [13, 10, 91, 93])⟩

/-- `\r\n[]=#"`, and nasty also are blanks and not the quotation mark. -/
def keyPlace : Place :=
  ⟨[13, 10, 91, 93, 61, 35, 34], .ofString (some [13, 10, 9, 32, 91, 93, 61, 35])⟩

def valuePlace : Place := ⟨[13, 10], wvtclNastySpaces⟩

def printsection (key : UniConfKey) : Str :=
  [newline, 91] ++ write sectionPlace key.printable ++ [93, newline]

/-- The key of a line; the root's is written `/`. -/
def keyText (key : UniConfKey) : Str :=
  if absolutelyNeedsEscape key.printable keyPlace.sepchars then
    wvtclEscapeStr keyPlace.nasties key.printable
  else if key.isempty then [UniConfKey.slash]
  else key.printable

def printkey (key : UniConfKey) (value : Str) : Str :=
  keyText key ++ [32, 61, 32] ++ write valuePlace value ++ [newline]

/-- `save_sect`: the text for the children of a node below `toplevel`, whose key is
`section_`; `pre` leads from `toplevel` to the node. -/
def saveSect (section_ : UniConfKey) (recursive : Bool) (pre : UniConfKey)
    (printedsection : Bool) : Forest Segment Str → Str × Bool
  | .nil => ([], printedsection)
  | .cons name value sub rest =>
    let (own, printedsection) :=
      if value = [] then ([], printedsection)
      else ((if printedsection then [] else printsection section_) ++
        printkey (pre ++ [name]) value, true)
    let (below, printedsection) :=
      if recursive then saveSect section_ recursive (pre ++ [name]) printedsection sub
      else ([], printedsection)
    let (others, printedsection) := saveSect section_ recursive pre printedsection rest
    (own ++ below ++ others, printedsection)

def saveChildren : Forest Segment Str → Str
  | .nil => []
  | .cons name _ sub rest => (saveSect [name] true [] false sub).1 ++ saveChildren rest

def save (root : UniConfValueTree) : Str :=
  (if root.val = [] then [] else printkey [] root.val) ++
    (saveSect [] false [] false root.kids).1 ++ saveChildren root.kids

inductive Line where
  | section_ (key : UniConfKey)
  | entry (key : UniConfKey) (value : Str)

def Line.text : Line → Str
  | section_ key => printsection key
  | entry key value => printkey key value

def texts (lines : List Line) : Str := lines.flatMap Line.text

/-- The keys with a value, in the order of `save_sect`. -/
def entries (recursive : Bool) (pre : UniConfKey) : Forest Segment Str → List (UniConfKey × Str)
  | .nil => []
  | .cons name value sub rest =>
    (if value = [] then [] else [(pre ++ [name], value)]) ++
      (if recursive then entries recursive (pre ++ [name]) sub else []) ++
      entries recursive pre rest

/-- A section is written if it has entries. -/
def sectionLines (section_ : UniConfKey) (es : List (UniConfKey × Str)) : List Line :=
  if es = [] then [] else .section_ section_ :: es.map fun e => .entry e.1 e.2

def childLines : Forest Segment Str → List Line
  | .nil => []
  | .cons name _ sub rest => sectionLines [name] (entries true [] sub) ++ childLines rest

def lines (root : UniConfValueTree) : List Line :=
  (if root.val = [] then [] else [.entry [] root.val]) ++
    sectionLines [] (entries false [] root.kids) ++ childLines root.kids

theorem texts_append (a b : List Line) : texts (a ++ b) = texts a ++ texts b :=
  flatMap_append

/-- Some entries of a section, with the section's header if it is not printed yet. -/
def sectText (section_ : UniConfKey) (printedsection : Bool) (es : List (UniConfKey × Str)) :
    Str × Bool :=
  ((if printedsection ∨ es = [] then [] else printsection section_) ++
    texts (es.map fun e => .entry e.1 e.2), printedsection || es != [])

theorem sectText_append (section_ : UniConfKey) (p : Bool) (a b : List (UniConfKey × Str)) :
    sectText section_ p (a ++ b) =
      ((sectText section_ p a).1 ++ (sectText section_ (sectText section_ p a).2 b).1,
        (sectText section_ (sectText section_ p a).2 b).2) := by
  cases p with
  | true => simp [sectText, texts_append]
  | false =>
    cases a with
    | nil => simp [sectText, texts]
    | cons e a =>
      have hsome : ∀ l : List (UniConfKey × Str), (e :: l != []) = true := fun _ => rfl
      simp [sectText, texts, hsome]

theorem saveSect_eq (section_ : UniConfKey) (recursive : Bool) (pre : UniConfKey)
    (printedsection : Bool) (f : Forest Segment Str) :
    saveSect section_ recursive pre printedsection f =
      sectText section_ printedsection (entries recursive pre f) := by
  induction f generalizing pre printedsection with
  | nil => simp [saveSect, sectText, entries, texts]
  | cons name value sub rest ihs ihr =>
    have hown : (if value = [] then (([] : Str), printedsection)
        else ((if printedsection then [] else printsection section_) ++
          printkey (pre ++ [name]) value, true)) =
        sectText section_ printedsection
          (if value = [] then [] else [(pre ++ [name], value)]) := by
      by_cases hv : value = []
      · simp [hv, sectText, texts]
      · simp [hv, sectText, texts, Line.text]
    have hbelow : ∀ p, (if recursive then saveSect section_ recursive (pre ++ [name]) p sub
        else ([], p)) =
        sectText section_ p (if recursive then entries recursive (pre ++ [name]) sub else []) := by
      intro p
      split
      · exact ihs (pre ++ [name]) p
      · simp [sectText, texts]
    rw [saveSect, entries, sectText_append, sectText_append]
    simp only [hown, hbelow, ihr]

theorem sectText_false (section_ : UniConfKey) (es : List (UniConfKey × Str)) :
    (sectText section_ false es).1 = texts (sectionLines section_ es) := by
  cases es with
  | nil => rfl
  | cons e es => simp [sectText, sectionLines, texts, Line.text]

theorem saveChildren_eq (f : Forest Segment Str) : saveChildren f = texts (childLines f) := by
  induction f with
  | nil => rfl
  | cons name value sub rest _ ihr =>
    rw [saveChildren, saveSect_eq, sectText_false, ihr, childLines, texts_append]

theorem save_eq (root : UniConfValueTree) : save root = texts (lines root) := by
  rw [save, saveSect_eq, sectText_false, saveChildren_eq, lines, texts_append, texts_append]
  congr 2
  split
  · rfl
  · simp [texts, Line.text]

theorem mem_entries {ok : Segment → Prop} {pre : UniConfKey} {f : Forest Segment Str}
    (hf : f.Proper ok) {e : UniConfKey × Str} (he : e ∈ entries true pre f) :
    ∃ s q, e.1 = pre ++ s :: q ∧ (∀ t ∈ s :: q, ok t) ∧ e.2 ≠ [] ∧
      Tree.contents (f.lookup (fold s)) (q.map fold) = some e.2 := by
  induction f generalizing pre with
  | nil => cases he
  | cons name value sub rest ihs ihr =>
    obtain ⟨hname, hnew, hsub, hrest⟩ := hf
    have hself : (Forest.cons name value sub rest).lookup (fold name) = some ⟨value, sub⟩ :=
      if_pos rfl
    rcases mem_append.mp he with he | he
    · rcases mem_append.mp he with he | he
      · by_cases hv : value = []
        · simp [hv] at he
        · obtain rfl : e = (pre ++ [name], value) := by simpa [hv] using he
          refine ⟨name, [], rfl, by simpa using hname, hv, ?_⟩
          rw [hself]
          rfl
      · obtain ⟨s, q, hkey, hok, hv, hc⟩ := ihs hsub he
        refine ⟨name, s :: q, ?_, forall_mem_cons.mpr ⟨hname, hok⟩, hv, ?_⟩
        · rw [hkey, append_assoc]
          rfl
        · rw [hself, Tree.contents_some, map_cons, Tree.content_cons]
          exact hc
    · obtain ⟨s, q, hkey, hok, hv, hc⟩ := ihr hrest he
      refine ⟨s, q, hkey, hok, hv, ?_⟩
      have hother : fold name ≠ fold s := by
        intro hsame
        rw [← hsame, hnew] at hc
        cases hc
      rw [Forest.lookup, if_neg hother]
      exact hc

theorem entries_of_contents (pre : UniConfKey) {f : Forest Segment Str} {s : Segment}
    {q : List Segment} {v : Str} (hc : Tree.contents (f.lookup s) q = some v) (hv : v ≠ []) :
    ∃ k, (k, v) ∈ entries true pre f ∧ k.map fold = pre.map fold ++ s :: q := by
  induction f generalizing pre s q with
  | nil => cases hc
  | cons name value sub rest ihs ihr =>
    rw [Forest.lookup] at hc
    by_cases hname : fold name = s
    · rw [if_pos hname, Tree.contents_some] at hc
      cases q with
      | nil =>
        obtain rfl : value = v := Option.some.inj hc
        refine ⟨pre ++ [name], ?_, by simp [hname]⟩
        simp [entries, hv]
      | cons t q =>
        rw [Tree.content_cons] at hc
        obtain ⟨k, hk, hfold⟩ := ihs (pre ++ [name]) hc
        refine ⟨k, ?_, ?_⟩
        · exact mem_append_left _ (mem_append_right _ hk)
        · rw [hfold]
          simp [hname]
    · rw [if_neg hname] at hc
      obtain ⟨k, hk, hfold⟩ := ihr pre hc
      exact ⟨k, mem_append_right _ hk, hfold⟩

end UniIniGen

end WvStreams
