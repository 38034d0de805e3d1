import WvStreams.UniConf.IniGen.ReadBack

/-!
# Saving and loading

A tree with legible entries is read back from the text that `save` writes for it
(`refresh_save`).
-/

namespace WvStreams

open Lib UniConfKey List Option Lib.Tree PathMap UniTempGen

namespace UniIniGen

/-- Childless nodes have a value. -/
def LeavesSet : Forest Segment Str → Prop
  | .nil => True
  | .cons _ value sub rest =>
    (sub = .nil → value ≠ []) ∧ LeavesSet sub ∧ LeavesSet rest

/-- A tree in a `UniIniGen` whose leaves have values that are not empty. -/
structure IniTree where
  root : UniConfValueTree
  names : root.kids.Proper fun s => s ≠ [] ∧ UniConfKey.slash ∉ s
  leaves : LeavesSet root.kids

def note (section_ : UniConfKey) (e : UniConfKey × Str) : Note Segment Str :=
  ((section_ ++ e.1).map fold, some e.2)

def childNotes (f : Forest Segment Str) : List (Note Segment Str) :=
  f.toList.flatMap fun c => (entries true [] c.2.kids).map (note [c.1])

def notes (root : UniConfValueTree) : List (Note Segment Str) :=
  (if root.val = [] then [] else [([], some root.val)]) ++
    (entries false [] root.kids).map (note []) ++ childNotes root.kids

theorem content_start (p : List Segment) :
    start.newgen.content p = if p = [] then some [] else none := by
  have hset : start.newgen.content =
      refSet UniTempGen.empty.content [] (some []) := content_set _ _ _
  rw [hset]
  cases p with
  | nil => rfl
  | cons s p => rfl

theorem content_load_entry (st : Loading) (hst : st.section_.Plain) (e : UniConfKey × Str)
    (he : e.1.Plain) : ((Line.entry e.1 e.2).load st).newgen.content =
      assign [] st.newgen.content (note st.section_ e).1 (note st.section_ e).2 := by
  have hplain := hst.append he
  have hset : ((Line.entry e.1 e.2).load st).newgen.content =
      refSet st.newgen.content (prepend e.1 st.section_) (some e.2) :=
    content_set _ _ _
  rw [hset, prepend_plain he hst, refSet, hplain.not_slash, hplain.path_eq]
  rfl

theorem content_load_entries (st : Loading) (hst : st.section_.Plain)
    {es : List (UniConfKey × Str)} (hes : ∀ e ∈ es, Plain e.1) :
    ((es.map fun e => Line.entry e.1 e.2).foldl Line.load st).newgen.content =
      assigns [] st.newgen.content (es.map (note st.section_)) := by
  induction es generalizing st with
  | nil => rfl
  | cons e es ih =>
    obtain ⟨he, hes⟩ := forall_mem_cons.mp hes
    have hrest := ih ((Line.entry e.1 e.2).load st) hst hes
    rw [content_load_entry st hst e he] at hrest
    exact hrest

theorem content_load_section (st : Loading) {section_ : UniConfKey} (hsection : section_.Plain)
    {es : List (UniConfKey × Str)} (hes : ∀ e ∈ es, Plain e.1) :
    ((sectionLines section_ es).foldl Line.load st).newgen.content =
      assigns [] st.newgen.content (es.map (note section_)) := by
  rw [sectionLines]
  split
  · rename_i hnil
    rw [hnil]
    rfl
  · exact content_load_entries ⟨st.newgen, section_⟩ hsection hes

variable {f : Forest Segment Str} {root : UniConfValueTree}

theorem content_load_children (st : Loading) (hf : f.Proper (· ≠ [])) :
    ((childLines f).foldl Line.load st).newgen.content =
      assigns [] st.newgen.content (childNotes f) := by
  induction f generalizing st with
  | nil => rfl
  | cons name value sub rest _ ihr =>
    obtain ⟨hname, -, hsub, hrest⟩ := hf
    have hsection : Plain [name] := plain_cons.mpr ⟨hname, plain_nil⟩
    have hes : ∀ e ∈ entries true [] sub, Plain e.1 := by
      intro e he
      obtain ⟨s, q, hkey, hok, -⟩ := mem_entries hsub he
      rw [hkey]
      exact fun hm => hok [] hm rfl
    have hnotes : childNotes (.cons name value sub rest) =
        (entries true [] sub).map (note [name]) ++ childNotes rest := flatMap_cons
    rw [childLines, foldl_append, ihr _ hrest, content_load_section st hsection hes, hnotes,
      assigns_append]

theorem entries_subset (f : Forest Segment Str) (pre : UniConfKey) :
    entries false pre f ⊆ entries true pre f := by
  induction f with
  | nil => exact Subset.refl _
  | cons name value sub rest _ ihr =>
    intro e he
    simp only [entries, Bool.false_eq_true, if_false, if_true, append_nil] at he ⊢
    rcases mem_append.mp he with he | he
    · exact mem_append_left _ (mem_append_left _ he)
    · exact mem_append_right _ (ihr he)

theorem content_load_lines (hroot : UniConfTree.Proper root) :
    ((lines root).foldl Line.load start).newgen.content =
      assigns [] start.newgen.content (notes root) := by
  have hes : ∀ e ∈ entries false [] root.kids, Plain e.1 := by
    intro e he
    obtain ⟨s, q, hkey, hok, -⟩ := mem_entries hroot (entries_subset _ _ he)
    rw [hkey]
    exact fun hm => hok [] hm rfl
  rw [lines, notes, foldl_append, foldl_append, content_load_children _ hroot,
    content_load_section _ plain_nil hes, assigns_append, assigns_append]
  congr 2
  split
  · rfl
  · exact content_load_entry start plain_nil ([], root.val) plain_nil

theorem notes_sound (hroot : UniConfTree.Proper root) :
    ∀ n ∈ notes root, n.2 ≠ none ∧ n.2 = root.content n.1 := by
  intro n hn
  rcases mem_append.mp hn with hn | hn
  · rcases mem_append.mp hn with hn | hn
    · split at hn
      · cases hn
      · obtain rfl := mem_singleton.mp hn
        exact ⟨some_ne_none _, rfl⟩
    · obtain ⟨e, he, rfl⟩ := mem_map.mp hn
      obtain ⟨s, q, hkey, -, -, hc⟩ := mem_entries hroot (entries_subset _ _ he)
      refine ⟨some_ne_none _, ?_⟩
      simp only [note, hkey, nil_append, map_cons]
      rw [content_cons, hc]
  · obtain ⟨c, hc, hn⟩ := mem_flatMap.mp hn
    obtain ⟨e, he, rfl⟩ := mem_map.mp hn
    have hsub := (Forest.Proper.ok_of_mem hroot hc).2
    obtain ⟨s, q, hkey, -, -, hvalue⟩ := mem_entries hsub he
    refine ⟨some_ne_none _, ?_⟩
    simp only [note, hkey, nil_append, cons_append, map_cons]
    rw [content_cons, Forest.Proper.lookup_of_mem hroot hc, contents_some,
      content_cons, hvalue]

theorem entries_of_child {s : Segment} {c : UniConfValueTree} (hc : f.lookup s = some c)
    (hv : c.val ≠ []) : ∃ name, ([name], c.val) ∈ entries false [] f ∧ fold name = s := by
  induction f with
  | nil => cases hc
  | cons name value sub rest _ ihr =>
    rw [Forest.lookup] at hc
    split at hc
    · rename_i hname
      obtain rfl := some.inj hc
      refine ⟨name, ?_, hname⟩
      have hvalue : value ≠ [] := hv
      simp [entries, hvalue]
    · obtain ⟨name', hmem, hfold⟩ := ihr hc
      exact ⟨name', mem_append_right _ hmem, hfold⟩

theorem notes_complete {p : List Segment} {v : Str} (hc : root.content p = some v) (hv : v ≠ []) :
    (p, some v) ∈ notes root := by
  cases p with
  | nil =>
    obtain rfl : root.val = v := some.inj hc
    apply mem_append_left
    apply mem_append_left
    rw [if_neg hv]
    exact mem_singleton_self _
  | cons s p =>
    rw [content_cons] at hc
    cases hchild : root.kids.lookup s with
    | none =>
      rw [hchild] at hc
      cases hc
    | some c =>
      rw [hchild, contents_some] at hc
      cases p with
      | nil =>
        obtain rfl : c.val = v := some.inj hc
        obtain ⟨name, hmem, hfold⟩ := entries_of_child hchild hv
        apply mem_append_left
        apply mem_append_right
        refine mem_map.mpr ⟨_, hmem, ?_⟩
        simp [note, hfold]
      | cons t p =>
        rw [content_cons] at hc
        obtain ⟨name, hfold, hmem⟩ := Forest.mem_of_lookup hchild
        obtain ⟨k, hk, hpath⟩ := entries_of_contents [] hc hv
        apply mem_append_right
        refine mem_flatMap.mpr ⟨_, hmem, mem_map.mpr ⟨_, hk, ?_⟩⟩
        simp [note, hfold, hpath]

theorem LeavesSet.value (hf : LeavesSet f) {s : Segment} {q : List Segment} {v : Str}
    (hc : contents (f.lookup s) q = some v) :
    ∃ r w, w ≠ [] ∧ contents (f.lookup s) (q ++ r) = some w := by
  induction f generalizing s q v with
  | nil => cases hc
  | cons name value sub rest ihs ihr =>
    obtain ⟨hleaf, hsub, hrest⟩ := hf
    rw [Forest.lookup] at hc ⊢
    split
    · rename_i hname
      rw [if_pos hname, contents_some] at hc
      cases q with
      | nil =>
        by_cases hv : value = []
        · cases sub with
          | nil => exact absurd hv (hleaf rfl)
          | cons name' value' sub' rest' =>
            have hself : contents ((Forest.cons name' value' sub' rest').lookup (fold name'))
                [] = some value' := by
              rw [Forest.lookup, if_pos rfl]
              rfl
            obtain ⟨r, w, hne, hr⟩ := ihs hsub hself
            refine ⟨fold name' :: r, w, hne, ?_⟩
            rw [nil_append, contents_some, content_cons]
            exact hr
        · exact ⟨[], value, hv, rfl⟩
      | cons t q =>
        rw [content_cons] at hc
        obtain ⟨r, w, hne, hr⟩ := ihs hsub hc
        refine ⟨r, w, hne, ?_⟩
        rw [cons_append, contents_some, content_cons]
        exact hr
    · rename_i hname
      rw [if_neg hname] at hc
      exact ihr hrest hc

/-- A key, relative to its section, and its value. -/
structure LegibleEntry (e : UniConfKey × Str) : Prop where
  key : Legible keyPlace keyStops e.1.printable
  value : Legible valuePlace lineStops e.2

/-- Everything that is written for the tree is legible. -/
structure LegibleTree (root : UniConfValueTree) : Prop where
  own : root.val ≠ [] → Legible valuePlace lineStops root.val
  top : ∀ e ∈ entries false [] root.kids, LegibleEntry e
  names : ∀ c ∈ root.kids.toList, entries true [] c.2.kids ≠ [] → Legible sectionPlace lineStops c.1
  sections : ∀ c ∈ root.kids.toList, ∀ e ∈ entries true [] c.2.kids, LegibleEntry e

theorem readable_sectionLines {section_ : UniConfKey} (hsection : section_.Sliced)
    (hf : f.Proper fun s => s ≠ [] ∧ slash ∉ s) {recursive : Bool}
    (hname : entries recursive [] f ≠ [] →
      section_ = [] ∨ Legible sectionPlace lineStops section_.printable)
    (hes : ∀ e ∈ entries recursive [] f, LegibleEntry e) :
    ∀ line ∈ sectionLines section_ (entries recursive [] f), line.Readable := by
  intro line hline
  rw [sectionLines] at hline
  split at hline
  · cases hline
  · rename_i hne
    rcases mem_cons.mp hline with rfl | hline
    · exact ⟨hsection, hname hne⟩
    · obtain ⟨e, he, rfl⟩ := mem_map.mp hline
      have hall : e ∈ entries true [] f := by
        cases recursive with
        | true => exact he
        | false => exact entries_subset _ _ he
      obtain ⟨s, q, hkey, hok, hv, -⟩ := mem_entries hf hall
      have hsliced : e.1.Sliced := by
        rw [hkey]
        exact hok
      exact ⟨hsliced, Or.inr (hes e he).key, hv, (hes e he).value⟩

theorem mem_childLines {line : Line} (h : line ∈ childLines f) :
    ∃ c ∈ f.toList, line ∈ sectionLines [c.1] (entries true [] c.2.kids) := by
  induction f with
  | nil => cases h
  | cons name value sub rest _ ihr =>
    rcases mem_append.mp h with h | h
    · exact ⟨_, mem_cons_self, h⟩
    · obtain ⟨c, hc, hline⟩ := ihr h
      exact ⟨c, mem_cons_of_mem _ hc, hline⟩

theorem readable_lines (c : IniTree) (h : LegibleTree c.root) :
    ∀ line ∈ lines c.root, line.Readable := by
  have hnil : Sliced [] := by simp [Sliced]
  intro line hline
  rcases mem_append.mp hline with hline | hline
  · rcases mem_append.mp hline with hline | hline
    · split at hline
      · cases hline
      · rename_i hv
        obtain rfl := mem_singleton.mp hline
        exact ⟨hnil, Or.inl rfl, hv, h.own hv⟩
    · exact readable_sectionLines hnil c.names (fun _ => Or.inl rfl) h.top line hline
  · obtain ⟨b, hb, hline⟩ := mem_childLines hline
    obtain ⟨hok, hsub⟩ := c.names.ok_of_mem hb
    have hsliced : Sliced [b.1] := by simpa [Sliced] using hok
    have hname : entries true [] b.2.kids ≠ [] →
        [b.1] = ([] : UniConfKey) ∨ Legible sectionPlace lineStops (printable [b.1]) := by
      intro hne
      have hprint : printable [b.1] = b.1 := by simp [printable]
      rw [hprint]
      exact Or.inr (h.names b hb hne)
    exact readable_sectionLines hsliced hsub hname (h.sections b hb) line hline

theorem IniTree.proper (c : IniTree) : UniConfTree.Proper c.root :=
  c.names.imp fun _ h => h.1

/-- A tree is loaded as it was saved if all that is written for it is legible. -/
theorem refresh_save (c : IniTree) (h : LegibleTree c.root) :
    (refresh (save c.root)).map UniTempGen.content = some c.root.content := by
  rw [save_eq, refresh_texts (readable_lines c h), map_some, content_load_lines c.proper]
  congr 1
  funext p
  apply assigns_eq c.root.content_closed (notes_sound c.proper)
  have hset : ∀ v, c.root.content p = some v → v ≠ [] → ∃ n ∈ notes c.root, n.1 = p :=
    fun v hc hv => ⟨_, notes_complete hc hv, rfl⟩
  rw [content_start]
  cases p with
  | nil =>
    by_cases hv : c.root.val = []
    · left
      rw [if_pos rfl, content_nil, hv]
    · exact Or.inr (Or.inl (hset c.root.val rfl hv))
  | cons s p =>
    rw [if_neg (cons_ne_nil s p)]
    cases hc : c.root.content (s :: p) with
    | none => exact Or.inl rfl
    | some v =>
      by_cases hv : v = []
      · -- a node without a value of its own is created for those below it
        subst hv
        rw [content_cons] at hc
        obtain ⟨r, w, hw, hr⟩ := c.leaves.value hc
        rw [← content_cons] at hr
        exact Or.inr (Or.inr ⟨rfl, rfl, _, notes_complete hr hw, prefix_append _ _⟩)
      · exact Or.inr (Or.inl (hset v hc hv))

/-- The section `[x` has the key `k=`, and its value is a blank, an open brace and `w`. -/
def escapedTree : IniTree where
  root := ⟨[], .cons [91, 120] [] (.cons [107, 61] [32, 123, 119] .nil .nil) .nil⟩
  names := by
    simp only [Forest.Proper]
    decide
  leaves := by simp [LeavesSet]

theorem refresh_save_escaped :
    (refresh (save escapedTree.root)).map UniTempGen.content = some escapedTree.root.content := by
  apply refresh_save
  constructor
  · intro h
    exact absurd rfl h
  · nofun
  · intro c hc _
    obtain rfl := mem_singleton.mp hc
    simp only [Legible]
    decide
  · intro c hc e he
    obtain rfl := mem_singleton.mp hc
    obtain rfl : e = ([[107, 61]], [32, 123, 119]) := mem_singleton.mp he
    constructor
    · simp only [Legible]
      decide
    · simp only [Legible]
      decide

def openTree : IniTree where
  root := ⟨[], .cons [107] [125, 123] .nil .nil⟩
  names := by
    simp only [Forest.Proper]
    decide
  leaves := by simp [LeavesSet]

/-- `}{` is written as it is, and the reader waits for the end of the braces: `k` is lost. -/
theorem refresh_save_fails :
    save openTree.root = [10, 91, 93, 10, 107, 32, 61, 32, 125, 123, 10] ∧
      (refresh (save openTree.root)).map UniTempGen.content ≠ some openTree.root.content := by
  have hsave : save openTree.root = [10, 91, 93, 10, 107, 32, 61, 32, 125, 123, 10] := by decide
  refine ⟨hsave, ?_⟩
  have hsection : wvtclGetword wvtclNastyNewlines false
      [10, 91, 93, 10, 107, 32, 61, 32, 125, 123, 10] =
        some ([91, 93], [10, 107, 32, 61, 32, 125, 123, 10]) := by decide
  have hopen : wvtclGetword wvtclNastyNewlines false
      [10, 107, 32, 61, 32, 125, 123, 10] = none := by decide
  have hagain : wvtclGetword wvtclNastyNewlines false
      [107, 32, 61, 32, 125, 123, 10] = none := by decide
  have hword : readWord start [91, 93] = some start :=
    readWord_section start (p := []) rfl rfl
  have hwords : readWords start [10, 91, 93, 10, 107, 32, 61, 32, 125, 123, 10] =
      some (start, [10, 107, 32, 61, 32, 125, 123, 10]) := by
    rw [readWords_of_some hsection, hword]
    exact readWords_of_none hopen
  have hskip : skipLines start [10, 107, 32, 61, 32, 125, 123, 10] = some start.newgen := by
    rw [skipLines_of_none [107, 32, 61, 32, 125, 123, 10] (by decide) (by decide) hagain,
      skipLines_of_none [] (by decide) (by decide) rfl, skipLines_nil]
  rw [hsave, refresh, readLines_eq start (Or.inr rfl), hwords, bind_some, hskip]
  intro hsame
  have hlost := congrFun (some.inj hsame) [[107]]
  rw [content_start] at hlost
  exact absurd hlost (by decide)

end UniIniGen

end WvStreams
