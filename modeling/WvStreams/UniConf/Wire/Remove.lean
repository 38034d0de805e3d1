import WvStreams.UniConf.Wire.Daemon
import WvStreams.UniConf.XIter

/-!
# The requests that change the daemon's tree

`set` stores at the key that is asked for. `do_remove` wants to take the slashes off the end of
its key, but takes the blanks with them: of a key whose last name ends in a blank it removes
another one (`changed_iff`).
-/

namespace WvStreams

open Lib PathMap List

namespace UniConfKey

/-- The key without its trailing slash and without the blanks at the end of its last name. -/
def trimmed (key : UniConfKey) : UniConfKey :=
  let names := key.filter (· ≠ [])
  collapse (names.dropLast ++ names.getLast?.toList.map trimEnd)

variable {front : UniConfKey} {s : Segment}

theorem trimmed_concat (h : Sliced (front ++ [s])) :
    trimmed (front ++ [s]) = collapse (front ++ [trimEnd s]) := by
  rw [trimmed, h.plain.filter_eq, dropLast_concat, getLast?_concat]
  rfl

theorem Sliced.init (h : Sliced (front ++ [s])) :
    front.Sliced := fun t ht => h t (mem_append_left _ ht)

theorem Sliced.last (h : Sliced (front ++ [s])) :
    s ≠ [] ∧ slash ∉ s := h s (mem_append_right _ mem_cons_self)

theorem Sliced.concat (h : front.Sliced) (hs : s ≠ [])
    (hslash : slash ∉ s) : Sliced (front ++ [s]) := by
  exact forall_mem_append.mpr ⟨h, forall_mem_singleton.mpr ⟨hs, hslash⟩⟩

theorem trimEnd_printable (front : UniConfKey) (s : Segment) :
    trimEnd (printable (front ++ [s])) = printable (front ++ [trimEnd s]) := by
  cases front with
  | nil => simp [printable]
  | cons t front =>
    have hne : t :: front ≠ [] := cons_ne_nil t front
    have hlast : ∀ c ∈ (printable (t :: front) ++ [slash]).getLast?, isspace c = false := by
      intro c hc
      rw [getLast?_concat, Option.mem_some_iff] at hc
      rw [← hc]
      rfl
    rw [printable_concat hne, printable_concat hne, append_cons, trimEnd_append hlast,
      ← append_cons]

theorem notMem_trimEnd (h : slash ∉ s) : slash ∉ trimEnd s := fun hmem =>
  h ((List.rdropWhile_prefix isspace s).subset hmem)

variable {key : UniConfKey}

theorem Sliced.ofString_trimEnd (h : key.Sliced) :
    ofString (trimEnd (printable key)) = key.trimmed := by
  rcases eq_nil_or_concat key with rfl | ⟨front, s, rfl⟩
  · rfl
  rw [concat_eq_append] at h ⊢
  rw [trimEnd_printable, trimmed_concat h]
  have hslash := notMem_trimEnd h.last.2
  by_cases hs : trimEnd s = []
  · rw [hs]
    by_cases hfront : front = []
    · rw [hfront]
      rfl
    · have hvalid := valid_slash hfront h.init.plain
      rw [collapse, if_neg hvalid.alone]
      apply hvalid.ofString_printable
      intro t ht
      rcases mem_append.mp ht with ht | ht
      · exact (h.init t ht).2
      · rw [mem_singleton.mp ht]
        exact not_mem_nil
  · have hsliced := h.init.concat hs hslash
    rw [ofString_printable hsliced, hsliced.plain.collapse_eq]

theorem Sliced.slash_notMem_trimmed (h : key.Sliced) : ∀ s ∈ key.trimmed, slash ∉ s := by
  rw [← h.ofString_trimEnd]
  exact slash_notMem_ofString _

theorem Sliced.valid_trimmed (h : key.Sliced) : key.trimmed.Valid := by
  rw [← h.ofString_trimEnd]
  exact valid_ofString _

theorem trimmed_slash (key : UniConfKey) : trimmed (key ++ [[]]) = key.trimmed := by
  have hfilter : (key ++ [[]]).filter (· ≠ []) = key.filter (· ≠ []) := by simp
  rw [trimmed, trimmed, hfilter]

theorem filter_sliced (h : ∀ s ∈ key, slash ∉ s) : Sliced (key.filter (· ≠ [])) := by
  intro s hs
  obtain ⟨hmem, hne⟩ := mem_filter.mp hs
  exact ⟨of_decide_eq_true hne, h s hmem⟩

theorem trimmed_filter (key : UniConfKey) : trimmed (key.filter (· ≠ [])) = key.trimmed := by
  have hfilter : (key.filter (· ≠ [])).filter (· ≠ []) = key.filter (· ≠ []) := by simp
  rw [trimmed, trimmed, hfilter]

section Blanks

variable {front : UniConfKey} {s : Segment}

theorem not_path_prefix_below (h : Sliced (front ++ [s])) (hs : trimEnd s ≠ s)
    (hnil : trimEnd s ≠ []) (q : List Segment) :
    ¬ path (front ++ [s]) <+: (trimmed (front ++ [s])).path ++ q := by
  intro hprefix
  rw [trimmed_concat h, path_collapse, path_append, path_append, path_cons_of_ne h.last.1,
    path_cons_of_ne hnil, append_assoc, prefix_append_right_inj, cons_append,
    cons_prefix_cons] at hprefix
  have hlength := congrArg length hprefix.1
  have hmap : (trimEnd s).length = s.length := by
    simpa [fold, Folds.fold] using hlength.symm
  exact hs ((List.rdropWhile_prefix isspace s).eq_of_length hmap)

theorem not_path_prefix_trimmed (h : Sliced (front ++ [s])) (hs : trimEnd s ≠ s) :
    ¬ path (front ++ [s]) <+: (trimmed (front ++ [s])).path := by
  by_cases hnil : trimEnd s = []
  · intro hprefix
    have hlen := hprefix.length_le
    rw [trimmed_concat h, path_collapse, hnil, path_slash, path_append,
      path_cons_of_ne h.last.1, length_append, length_cons] at hlen
    omega
  · have hbelow := not_path_prefix_below h hs hnil []
    rwa [append_nil] at hbelow

end Blanks

end UniConfKey

/-! ## The key strings of `do_remove` -/

section KeyStrings

open UniConfKey

theorem getdirname_concat {front : UniConfKey} {s : Segment} (h : Sliced (front ++ [s])) :
    getdirname (printable (front ++ [s])) =
      if front = [] then bytes "." else printable front := by
  obtain ⟨hs, hslash⟩ := h.last
  rw [getdirname]
  by_cases hfront : front = []
  · rw [if_pos hfront, hfront]
    have hprint : printable ([] ++ [s]) = s := by simp [printable]
    rw [hprint, dif_neg hs, if_pos hslash]
  · have hprint := printable_concat hfront s
    have hnonempty : printable (front ++ [s]) ≠ [] := printable_ne_nil h (by simp)
    have hmem : ¬ slash ∉ printable (front ++ [s]) := by
      rw [hprint]
      simp
    have hend : (printable (front ++ [s])).getLast? ≠ some slash :=
      fun e => getLast?_printable h slash e rfl
    have hdrop : (printable (front ++ [s])).rdropWhile (· ≠ slash) =
        printable front ++ [slash] := by
      have hall : ∀ c ∈ s.reverse, decide (c ≠ slash) = true := by
        intro c hc
        apply decide_eq_true
        rintro rfl
        exact hslash (mem_reverse.mp hc)
      rw [hprint, rdropWhile, reverse_append, reverse_cons, append_assoc,
        dropWhile_append_of_pos hall]
      simp
    rw [dif_neg hnonempty, if_neg hmem, if_neg hend, hdrop, dropLast_concat]
    rw [if_neg (printable_ne_nil h.init hfront), if_neg hfront]

theorem takeWhile_slash {s : Str} (h : s.getLast? ≠ some slash) :
    s.reverse.takeWhile (· = slash) = [] := by
  rcases eq_nil_or_concat s with rfl | ⟨s, c, rfl⟩
  · rfl
  rw [concat_eq_append] at h ⊢
  rw [getLast?_concat] at h
  have hc : c ≠ slash := by simpa using h
  rw [reverse_concat]
  apply takeWhile_cons_of_neg
  simpa using hc

theorem getLast?_tail_ne {s : Str} (h : s.getLast? ≠ some slash) :
    s.tail.getLast? ≠ some slash := by
  cases s with
  | nil => exact h
  | cons c s =>
    cases s with
    | nil => simp
    | cons d s => rwa [getLast?_cons_cons] at h

open UniConfDaemonConn

theorem blankSlashes_of_not_slash {s : Str} (h : s.getLast? ≠ some slash) : blankSlashes s = s := by
  rw [blankSlashes, takeWhile_slash (getLast?_tail_ne h)]
  simp

theorem blankSlashes_slash {s : Str} (hne : s ≠ []) (h : s.getLast? ≠ some slash) :
    blankSlashes (s ++ [slash]) = s ++ [32] := by
  have hone : (s ++ [slash]).tail.reverse.takeWhile (· = slash) = [slash] := by
    rw [tail_append_of_ne_nil hne, reverse_concat, takeWhile_cons,
      takeWhile_slash (getLast?_tail_ne h)]
    rfl
  rw [blankSlashes, hone]
  simp

theorem removed_key {key : UniConfKey} (h : key.Valid) (hslash : ∀ s ∈ key, slash ∉ s) :
    ofString (trimEnd (blankSlashes (printable key))) = trimmed key := by
  have hend : ∀ {k : UniConfKey}, k.Sliced → (printable k).getLast? ≠ some slash :=
    fun hk e => getLast?_printable hk slash e rfl
  rcases h.cases with hplain | ⟨front, hne, hfront, rfl⟩
  · have hsliced : key.Sliced := fun s hs => ⟨fun hnil => hplain (hnil ▸ hs), hslash s hs⟩
    rw [blankSlashes_of_not_slash (hend hsliced), hsliced.ofString_trimEnd]
  · have hsliced : front.Sliced := fun s hs =>
      ⟨fun hnil => hfront (hnil ▸ hs), hslash s (mem_append_left _ hs)⟩
    have hblank : isspace 32 = true := rfl
    rw [printable_concat hne, blankSlashes_slash (printable_ne_nil hsliced hne) (hend hsliced),
      trimEnd, rdropWhile_concat_pos _ _ _ hblank, trimmed_slash]
    exact hsliced.ofString_trimEnd

end KeyStrings

/-! ## What a removal does to the content -/

namespace UniTempGen

open UniConfKey

variable {g : UniTempGen} {top : UniConfKey}

def Sliced (g : UniTempGen) : Prop := ∀ p, g.content p ≠ none → ∀ s ∈ p, slash ∉ s

theorem fold_slash {s : Segment} : slash ∈ (fold s : Segment) ↔ slash ∈ s := by
  have hmap : (fold s : Segment) = s.map tolower := rfl
  rw [hmap, mem_map]
  constructor
  · rintro ⟨c, hc, he⟩
    rwa [← XIter.tolower_eq (by decide) he]
  · intro h
    exact ⟨slash, h, by decide⟩

theorem sliced_empty : Sliced empty := fun _ h => absurd rfl h

theorem Sliced.set (h : Sliced g) (key : Str) (value : WvString) :
    Sliced (g.set (ofString key) value).1 := by
  have hkey : ∀ s ∈ path (ofString key), slash ∉ s := by
    intro s hs
    obtain ⟨t, ht, rfl⟩ := mem_map.mp hs
    exact fun hmem => slash_notMem_ofString key t (mem_of_mem_filter ht) (fold_slash.mp hmem)
  intro p hp
  by_contra hslash
  have hnone : g.content p = none := by
    by_contra hcontent
    exact hslash (h p hcontent)
  have hprefix : ¬ p <+: path (ofString key) := by
    intro hbelow
    exact hslash fun s hs => hkey s (hbelow.subset hs)
  apply hp
  rw [content_set, refSet]
  split
  · exact hnone
  · cases value with
    | none =>
      rw [assign_none, prune]
      split
      · rfl
      · exact hnone
    | some value => rw [assign_some_other [] _ value hprefix, hnone]

theorem iterator_eq_nil : g.iterator top = [] ↔ ∀ s, g.content (top.path ++ [s]) = none := by
  have hlists := g.lists_iterator top
  rw [eq_nil_iff_forall_not_mem]
  constructor
  · intro h s
    by_contra hs
    obtain ⟨v, hv⟩ := Option.ne_none_iff_exists'.mp hs
    obtain ⟨name, -, hmem⟩ := (hlists.mem s v).mpr hv
    exact h (name, v) hmem
  · rintro h ⟨name, v⟩ hmem
    have hv := (hlists.mem (fold name) v).mp ⟨name, rfl, hmem⟩
    rw [h] at hv
    cases hv

theorem Sliced.child (h : Sliced g) {c : Segment × Str} (hc : c ∈ g.iterator top) :
    c.1 ≠ [] ∧ slash ∉ c.1 := by
  refine ⟨ne_nil_of_mem_iterator hc, ?_⟩
  have hv := ((g.lists_iterator top).mem (fold c.1) c.2).mp ⟨c.1, rfl, hc⟩
  have hslash := h _ (by rw [hv]; exact Option.some_ne_none _) (fold c.1)
    (mem_append_right _ mem_cons_self)
  exact fun hmem => hslash (fold_slash.mpr hmem)

theorem content_unset (g : UniTempGen) (key : UniConfKey) :
    (gen.set key none g).content = g.content.prune key.path := by
  show (g.set key none).1.content = _
  rw [content_set, refSet]
  simp

theorem haschildren_eq (g : UniTempGen) (key : UniConfKey) :
    gen.haschildren key g = !(g.iterator key).isEmpty := rfl

end UniTempGen

namespace UniConfDaemonConn

open UniClientConn UniConfKey UniTempGen

variable {g : UniTempGen} {top : UniConfKey}

theorem removeUnder_missing (depth : Nat) (h : g.content top.path = none) :
    removeUnder gen depth top g = g := by
  cases depth with
  | zero => rfl
  | succ depth =>
    have hnil : g.iterator top = [] := iterator_eq_nil.mpr fun s => g.content_closed _ [s] h
    rw [removeUnder, gen_iterator, hnil]
    rfl

/-- The key that `getdirname` takes for the one above a child of `top`: it answers `.` where there
is no directory, and a key `.` is taken for the root too. -/
def section_ (top : UniConfKey) : UniConfKey := if top = [bytes "."] then [] else top

theorem removeChild_eq {s : Segment} (h : Sliced (top ++ [s])) (g : UniTempGen) :
    removeChild gen (top ++ [s]) g =
      if ((gen.set (top ++ [s]) none g).iterator (section_ top)).isEmpty then
        gen.set (section_ top) none (gen.set (top ++ [s]) none g)
      else gen.set (top ++ [s]) none g := by
  have hsect : (if getdirname (printable (top ++ [s])) = bytes "." then []
      else ofString (getdirname (printable (top ++ [s])))) = section_ top := by
    rw [getdirname_concat h, section_]
    by_cases htop : top = []
    · rw [if_pos htop, if_pos rfl, htop]
      rfl
    · rw [if_neg htop]
      by_cases hdot : top = [bytes "."]
      · rw [if_pos hdot, hdot]
        rfl
      · have hprint : printable top ≠ bytes "." := by
          intro e
          have hread : ofString (printable top) = [bytes "."] := by
            rw [e]
            decide +kernel
          rw [ofString_printable h.init] at hread
          exact hdot hread
        rw [if_neg hprint, if_neg hdot, ofString_printable h.init]
  rw [removeChild, hsect, haschildren_eq]
  cases ((gen.set (top ++ [s]) none g).iterator (section_ top)).isEmpty with
  | true => rfl
  | false => rfl

/-- One step of the loop for a child of `top`. -/
def removed (depth : Nat) (top : UniConfKey) (g : UniTempGen) (c : Segment × Str) : UniTempGen :=
  let key := UniConfKey.concat top [c.1]
  removeUnder UniTempGen.gen depth key (removeChild UniTempGen.gen key g)

theorem removeUnder_succ (depth : Nat) (top : UniConfKey) (g : UniTempGen) :
    removeUnder gen (depth + 1) top g =
      (g.iterator top).foldl (removed depth top) g := by
  rw [removeUnder, gen_iterator, foldl_map]
  rfl

def pruneBelow (m : PathMap Segment Str) (k : List Segment) : PathMap Segment Str :=
  fun p => if k <+: p ∧ p ≠ k then none else m p

section Loop

variable {m : PathMap Segment Str} {k : List Segment} {s : Segment}

theorem prune_prune_child : (m.prune (k ++ [s])).prune k = m.prune k := by
  funext p
  simp only [prune]
  split
  · rfl
  · rename_i h
    rw [if_neg fun hs => h ((prefix_append k [s]).trans hs)]

theorem pruneBelow_prune_child : pruneBelow (m.prune (k ++ [s])) k = pruneBelow m k := by
  funext p
  simp only [pruneBelow, prune]
  split
  · rfl
  · rename_i h
    apply if_neg
    intro hs
    refine h ⟨(prefix_append k [s]).trans hs, ?_⟩
    rintro rfl
    have hlen := hs.length_le
    rw [length_append, length_singleton] at hlen
    omega

/-- The children that are left are those that `l` lists. -/
def Left (m : PathMap Segment Str) (k : List Segment) (l : List (Segment × Str)) : Prop :=
  (l.map fun c => (fold c.1 : Segment)).Nodup ∧
    ∀ s, m (k ++ [s]) ≠ none ↔ s ∈ l.map fun c => (fold c.1 : Segment)

theorem Left.next {c : Segment × Str} {l : List (Segment × Str)} (h : Left m k (c :: l)) :
    Left (m.prune (k ++ [fold c.1])) k l := by
  obtain ⟨hnodup, hmem⟩ := h
  rw [map_cons, nodup_cons] at hnodup
  refine ⟨hnodup.2, fun s => ?_⟩
  have hs := hmem s
  rw [map_cons, mem_cons] at hs
  by_cases hsc : s = fold c.1
  · rw [hsc]
    simpa [prune] using hnodup.1
  · have hprefix : ¬ k ++ [fold c.1] <+: k ++ [s] := by
      rw [prefix_append_right_inj]
      simpa using Ne.symm hsc
    rw [prune, if_neg hprefix, hs]
    exact or_iff_right hsc

end Loop

theorem left_iterator (g : UniTempGen) (top : UniConfKey) :
    Left g.content top.path (g.iterator top) := by
  have hlists := g.lists_iterator top
  refine ⟨pairwise_map.mpr hlists.distinct, fun s => ?_⟩
  rw [Option.ne_none_iff_exists', mem_map]
  constructor
  · rintro ⟨v, hv⟩
    obtain ⟨name, hname, hmem⟩ := (hlists.mem s v).mpr hv
    exact ⟨(name, v), hmem, hname⟩
  · rintro ⟨⟨name, v⟩, hmem, hname⟩
    exact ⟨v, (hlists.mem s v).mp ⟨name, hname, hmem⟩⟩

section Loop

variable {depth : Nat} {c : Segment × Str}

theorem content_removed (g : UniTempGen) (depth : Nat) (htop : top.Sliced)
    (hc : c.1 ≠ [] ∧ slash ∉ c.1) :
    let m := g.content.prune (top.path ++ [fold c.1])
    ((∃ s, m ((section_ top).path ++ [s]) ≠ none) → (removed depth top g c).content = m) ∧
    ((∀ s, m ((section_ top).path ++ [s]) = none) →
      (removed depth top g c).content = m.prune (section_ top).path) := by
  intro m
  have hkey : concat top [c.1] = top ++ [c.1] := concat_name htop.plain hc.1
  have hpath : path (top ++ [c.1]) = top.path ++ [fold c.1] := path_concat top hc.1 rfl
  have hunset : (gen.set (top ++ [c.1]) none g).content = m := by
    rw [content_unset, hpath]
  have hgone : m (top.path ++ [fold c.1]) = none := by
    show prune _ _ _ = none
    simp [prune]
  have hremoved : removed depth top g c = removeUnder gen depth (top ++ [c.1])
      (removeChild gen (top ++ [c.1]) g) := by
    rw [removed, hkey]
  rw [hremoved, removeChild_eq (htop.concat hc.1 hc.2)]
  constructor
  · rintro ⟨s, hs⟩
    have hsome : (gen.set (top ++ [c.1]) none g).iterator (section_ top) ≠ [] := by
      intro hnil
      rw [iterator_eq_nil, hunset] at hnil
      exact hs (hnil s)
    rw [if_neg (by simpa using hsome), removeUnder_missing depth (by rw [hunset, hpath, hgone]),
      hunset]
  · intro hnone
    have hnil : (gen.set (top ++ [c.1]) none g).iterator (section_ top) = [] := by
      rw [iterator_eq_nil, hunset]
      exact hnone
    have hpruned : (gen.set (section_ top) none
        (gen.set (top ++ [c.1]) none g)).content = m.prune (section_ top).path := by
      rw [content_unset, hunset]
    have hmissing : (m.prune (section_ top).path) (top.path ++ [fold c.1]) = none := by
      rw [prune, hgone, ite_self]
    rw [if_pos (by rw [hnil]; rfl), removeUnder_missing depth (by rw [hpruned, hpath, hmissing]),
      hpruned]

theorem content_loop {l : List (Segment × Str)} (htop : top.Sliced) (hdot : top ≠ [bytes "."])
    (hl : ∀ c ∈ l, c.1 ≠ [] ∧ slash ∉ c.1) (hleft : Left g.content top.path l) (hne : l ≠ []) :
    (l.foldl (removed depth top) g).content = g.content.prune top.path := by
  have hsection : section_ top = top := if_neg hdot
  induction l generalizing g with
  | nil => exact absurd rfl hne
  | cons c l ih =>
    rw [forall_mem_cons] at hl
    have hstep := content_removed g depth htop hl.1
    rw [hsection] at hstep
    have hnext := hleft.next
    rw [foldl_cons]
    by_cases hlast : l = []
    · rw [hlast] at hnext ⊢
      have hnone : ∀ s, g.content.prune (top.path ++ [fold c.1]) (top.path ++ [s]) = none := by
        intro s
        by_contra hs
        exact not_mem_nil ((hnext.2 s).mp hs)
      rw [foldl_nil, hstep.2 hnone, prune_prune_child]
    · obtain ⟨d, l', rfl⟩ := exists_cons_of_ne_nil hlast
      have hsome := (hnext.2 (fold d.1)).mpr mem_cons_self
      have hcontent := hstep.1 ⟨_, hsome⟩
      rw [ih hl.2 (by rw [hcontent]; exact hnext) hlast, hcontent, prune_prune_child]

theorem content_loop_dot {l : List (Segment × Str)} (hl : ∀ c ∈ l, c.1 ≠ [] ∧ slash ∉ c.1)
    (hleft : Left g.content [bytes "."] l) (hdot : g.content [bytes "."] ≠ none) :
    (l.foldl (removed depth [bytes "."]) g).content = pruneBelow g.content [bytes "."] := by
  have htop : UniConfKey.Sliced [bytes "."] := by
    rw [UniConfKey.Sliced]
    decide
  have hpath : UniConfKey.path [bytes "."] = [bytes "."] := by decide
  have hsection : (section_ [bytes "."]).path = [] := by decide
  induction l generalizing g with
  | nil =>
    funext p
    rw [foldl_nil, pruneBelow]
    split
    · rename_i hp
      obtain ⟨⟨q, rfl⟩, hne⟩ := hp
      cases q with
      | nil => exact absurd (append_nil _) hne
      | cons s q =>
        have hnone : g.content ([bytes "."] ++ [s]) = none := by
          by_contra hs
          exact not_mem_nil ((hleft.2 s).mp hs)
        have hbelow := g.content_closed _ q hnone
        rwa [← append_cons] at hbelow
    · rfl
  | cons c l ih =>
    rw [forall_mem_cons] at hl
    have hstep := content_removed g depth htop hl.1
    rw [hpath, hsection] at hstep
    have hkept : g.content.prune ([bytes "."] ++ [fold c.1]) [bytes "."] ≠ none := by
      have hlen : ¬ [bytes "."] ++ [fold c.1] <+: [bytes "."] := fun h => by
        have := h.length_le
        simp at this
      rwa [prune, if_neg hlen]
    have hcontent := hstep.1 ⟨bytes ".", hkept⟩
    rw [foldl_cons, ih hl.2 (by rw [hcontent]; exact hleft.next) (by rwa [hcontent]),
      hcontent, pruneBelow_prune_child]

end Loop

section Request

variable {depth : Nat} {key : UniConfKey}

theorem plain_of_get (h : key.Valid) (hget : g.get key ≠ none) : key.Plain := by
  rcases h.cases with hplain | ⟨front, -, -, rfl⟩
  · exact hplain
  · rw [get_eq, refGet, slash_hastrailingslash] at hget
    exact absurd rfl hget

theorem content_do_remove (hg : g.Sliced) (h : key.Valid) (hslash : ∀ s ∈ key, slash ∉ s) :
    (do_remove gen (depth + 1) key g).content =
      if g.get key.trimmed = none then g.content
      else if key.trimmed = [bytes "."] ∧ g.iterator key.trimmed ≠ [] then
        pruneBelow g.content [bytes "."]
      else g.content.prune key.trimmed.path := by
  have hsliced := filter_sliced hslash
  have hexists : gen.exists_ key.trimmed g = (g.get key.trimmed).isSome := rfl
  rw [do_remove, removed_key h hslash]
  rw [hexists, gen_iterator]
  by_cases hget : g.get key.trimmed = none
  · rw [if_pos hget, hget]
    rfl
  have hvalid : key.trimmed.Valid := by
    rw [← trimmed_filter]
    exact hsliced.valid_trimmed
  have hplain := plain_of_get hvalid hget
  have htop : key.trimmed.Sliced := by
    intro s hs
    refine ⟨fun hnil => hplain (hnil ▸ hs), ?_⟩
    rw [← trimmed_filter] at hs
    exact hsliced.slash_notMem_trimmed s hs
  rw [if_neg hget, if_pos (Option.isSome_iff_ne_none.mpr hget), removeUnder_succ]
  by_cases hnil : g.iterator key.trimmed = []
  · have hsingle : (map (fun c : Segment × Str => (c.1, some c.2)) []).isEmpty = true := rfl
    rw [hnil, if_pos hsingle, if_neg fun hdot => hdot.2 rfl]
    exact content_unset g key.trimmed
  have hleft := left_iterator g key.trimmed
  have hl : ∀ c ∈ g.iterator key.trimmed, c.1 ≠ [] ∧ slash ∉ c.1 := fun c hc => hg.child hc
  rw [if_neg (by simpa using hnil)]
  by_cases hdot : key.trimmed = [bytes "."]
  · rw [if_pos ⟨hdot, hnil⟩]
    rw [hdot] at hleft hl hget ⊢
    have hpath : path [bytes "."] = [bytes "."] := by decide
    rw [hpath] at hleft
    apply content_loop_dot hl hleft
    rwa [get_of_plain g (by decide), hpath] at hget
  · rw [if_neg fun hboth => hdot hboth.1]
    exact content_loop htop hdot hl hleft hnil

/-- The last name of the key does not end in a blank, and it is not the key `.` with children; or
there is neither the key nor the one without the blanks. -/
def Meant (g : UniTempGen) (key : UniConfKey) : Prop :=
  (key.trimmed = key.filter (· ≠ []) ∧
      ¬ (key.trimmed = [bytes "."] ∧ g.iterator key.trimmed ≠ [])) ∨
    (g.content key.path = none ∧ g.get key.trimmed = none)

theorem ne_prune (hsliced : Sliced (key.filter (· ≠ [])))
    (hblank : key.trimmed ≠ key.filter (· ≠ [])) (hget : g.content key.trimmed.path ≠ none) :
    g.content.prune key.trimmed.path ≠ g.content.prune key.path ∧
      (key.trimmed = [bytes "."] → g.iterator key.trimmed ≠ [] →
        pruneBelow g.content [bytes "."] ≠ g.content.prune key.path) := by
  rw [← trimmed_filter] at hblank hget ⊢
  rw [← path_filter key]
  generalize key.filter (· ≠ []) = names at hsliced hblank hget ⊢
  rcases eq_nil_or_concat names with rfl | ⟨front, s, rfl⟩
  · exact absurd rfl hblank
  rw [concat_eq_append] at hsliced hblank hget ⊢
  have hs : trimEnd s ≠ s := by
    intro hs
    rw [trimmed_concat hsliced, hs, hsliced.plain.collapse_eq] at hblank
    exact hblank rfl
  constructor
  · intro heq
    have hat := congrFun heq (trimmed (front ++ [s])).path
    rw [prune, if_pos (prefix_refl _), prune, if_neg (not_path_prefix_trimmed hsliced hs)] at hat
    exact hget hat.symm
  · intro hdot hchildren heq
    have hnil : trimEnd s ≠ [] := by
      intro hnil
      rw [trimmed_concat hsliced, hnil, collapse] at hdot
      split at hdot
      · cases hdot
      · have hlast := congrArg getLast? hdot
        rw [getLast?_concat] at hlast
        exact absurd hlast (by decide)
    rw [ne_eq, iterator_eq_nil] at hchildren
    obtain ⟨t, ht⟩ := not_forall.mp hchildren
    have hat := congrFun heq ((trimmed (front ++ [s])).path ++ [t])
    rw [prune, if_neg (not_path_prefix_below hsliced hs hnil [t])] at hat
    apply ht
    rw [← hat, hdot]
    rfl

theorem do_remove_iff (hg : g.Sliced) (h : key.Valid) (hslash : ∀ s ∈ key, slash ∉ s) :
    (do_remove gen (depth + 1) key g).content = g.content.prune key.path ↔ Meant g key := by
  have hsliced := filter_sliced hslash
  have hvalid : key.trimmed.Valid := by
    rw [← trimmed_filter]
    exact hsliced.valid_trimmed
  have hself : g.content.prune key.path key.path = none := by
    rw [prune, if_pos (prefix_refl _)]
  rw [content_do_remove hg h hslash, Meant]
  by_cases hget : g.get key.trimmed = none
  · rw [if_pos hget]
    constructor
    · intro heq
      exact Or.inr ⟨by rw [heq, hself], hget⟩
    · intro hmeant
      have hnone : g.content key.path = none := by
        rcases hmeant with ⟨htrimmed, -⟩ | ⟨hnone, -⟩
        · have hplain : key.trimmed.Plain := by
            rw [htrimmed]
            exact hsliced.plain
          rwa [get_of_plain g hplain, htrimmed, path_filter] at hget
        · exact hnone
      exact (g.content_closed.prune_of_none hnone).symm
  · have hplain := plain_of_get hvalid hget
    have hthere : g.content key.trimmed.path ≠ none := by rwa [← get_of_plain g hplain]
    rw [if_neg hget]
    by_cases hblank : key.trimmed = key.filter (· ≠ [])
    · have hpath : key.trimmed.path = key.path := by rw [hblank, path_filter]
      by_cases hdot : key.trimmed = [bytes "."] ∧ g.iterator key.trimmed ≠ []
      · rw [if_pos hdot]
        constructor
        · intro heq
          have hat := congrFun heq key.trimmed.path
          have hdotpath : key.trimmed.path = [bytes "."] := by
            rw [hdot.1]
            decide
          rw [hpath, hself, ← hpath, hdotpath, pruneBelow, if_neg fun hne => hne.2 rfl,
            ← hdotpath] at hat
          exact absurd hat hthere
        · rintro (⟨-, hnot⟩ | ⟨-, hnone⟩)
          · exact absurd hdot hnot
          · exact absurd hnone hget
      · rw [if_neg hdot, hpath]
        exact iff_of_true rfl (Or.inl ⟨hblank, hdot⟩)
    · obtain ⟨hprune, hbelow⟩ := ne_prune hsliced hblank hthere
      apply iff_of_false
      · split
        · rename_i hdot
          exact hbelow hdot.1 hdot.2
        · exact hprune
      · rintro (⟨htrimmed, -⟩ | ⟨-, hnone⟩)
        · exact hblank htrimmed
        · exact hget hnone

end Request

/-! ## Names without slashes -/

/-! ## A request -/

theorem execute_tree {σ : Type} (gen : IUniConfGen σ) (depth : Nat) {c c' : UniClientConn} (s : σ)
    (out : Str) {cmd : Command} {command_string : WvString}
    (h : c.readcmd = (.command cmd, command_string, c')) :
    (execute gen depth (c, s, out)).2.1 = (perform gen depth (.command cmd)
      (command_string.getD []) c'.readarg.1 c'.readarg.2.readarg.1 s).1 := by
  rw [execute]
  rw [h]

/-- A request to set a key stores the value at that key and nowhere else, where a key with a
trailing slash has no value. A request to remove a key takes that key with what is below it, and
nothing else, if and only if it is `Meant`. -/
theorem changed_iff (g : UniTempGen) (hg : g.Sliced) (depth : Nat) (c c' : UniClientConn)
    (out : Str) {cmd : Command} {command_string : WvString}
    (hcmd : c.readcmd = (.command cmd, command_string, c')) {name : Str}
    (hname : c'.readarg.1 = some name) :
    let key := ofString name
    let tree := (execute gen (depth + 1) (c, g, out)).2.1
    (cmd = .REQ_SET → ∀ value, c'.readarg.2.readarg.1 = some value →
      tree.content = if key.hastrailingslash then g.content
        else assign [] g.content key.path (some value)) ∧
    (cmd = .REQ_REMOVE → (tree.content = g.content.prune key.path ↔ Meant g key)) := by
  intro key tree
  have htree : tree = _ := execute_tree gen (depth + 1) g out hcmd
  rw [htree, hname]
  constructor
  · rintro rfl value hvalue
    rw [hvalue]
    show (g.set key (some value)).1.content = _
    rw [content_set, refSet]
    simp
  · rintro rfl
    exact do_remove_iff hg (valid_ofString name) (slash_notMem_ofString name)

/-- The request to remove `a` takes `a/b` with it and leaves `b`. -/
theorem changed_iff_remove :
    let g := ((empty.set (ofString (bytes "a/b")) (some (bytes "1"))).1.set
      (ofString (bytes "b")) (some (bytes "2"))).1
    (execute gen 3 ({ msgbuf := bytes "del a\n" }, g, [])).2.1.content =
      g.content.prune [bytes "a"] := by
  intro g
  have hg : g.Sliced := (sliced_empty.set _ _).set _ _
  have hword : wvtclGetword wvtclNastyNewlines false (bytes "del a\n") =
      some (bytes "del a", [newline]) := by decide +kernel
  have hcommand : getarg (bytes "del a") = (some (bytes "del"), bytes " a") := by decide +kernel
  have harg : getarg (bytes " a") = (some (bytes "a"), []) := by decide +kernel
  have hread : UniClientConn.readcmd { msgbuf := bytes "del a\n" } = (.command .REQ_REMOVE,
      some (bytes "del"), { msgbuf := [newline], payloadbuf := bytes " a" }) := by
    rw [readcmd, readmsg_of_found hword]
    dsimp only
    rw [readarg_eq, hcommand]
    rfl
  have hname : (UniClientConn.readarg
      { msgbuf := [newline], payloadbuf := bytes " a" }).1 = some (bytes "a") := by
    rw [readarg_eq, harg]
  have hmeant : Meant g (ofString (bytes "a")) := by
    refine Or.inl ⟨by decide +kernel, ?_⟩
    rintro ⟨hdot, -⟩
    exact absurd hdot (by decide +kernel)
  have hkey : path (ofString (bytes "a")) = [bytes "a"] := by decide +kernel
  rw [← hkey]
  exact ((changed_iff g hg 2 _ _ [] hread hname).2 rfl).mpr hmeant

/-- In a tree that has only `a`, the request to remove the key of `a` and a blank removes `a`. -/
theorem changed_fails :
    let g := (empty.set (ofString (bytes "a")) (some (bytes "1"))).1
    let tree := (run (execute gen 2) ({}, g, [])
      ([.deliver (bytes "del {a }\n")] ++ replicate 1 .poll)).2.1
    g.get (ofString (bytes "a ")) = none ∧ g.get (ofString (bytes "a")) = some (bytes "1") ∧
      tree.get (ofString (bytes "a")) = none := by
  intro g tree
  have hpairs : ∀ pair ∈ ([⟨⟨[bytes "a "], by decide, by decide⟩, none⟩] : List UniConfPair),
      Sendable pair := forall_mem_singleton.mpr ⟨by decide, by decide⟩
  have htree : tree = told gen 2 g ⟨⟨[bytes "a "], by decide, by decide⟩, none⟩ :=
    set_tree hpairs (by decide +kernel) (by decide)
  rw [htree]
  decide +kernel

end UniConfDaemonConn

end WvStreams
