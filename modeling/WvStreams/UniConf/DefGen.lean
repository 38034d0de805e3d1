import Mathlib.Data.List.Find
import WvStreams.Strings.CNumber
import WvStreams.UniConf.XIter

/-!
# `UniDefGen`

A key that is not there is looked for with `*` in the place of some of its segments. The search goes
over the strings of the candidates (`finddefault`) and finds the first key that is there of
`choices`, which prefers a segment itself to `*` from the left (`finddefault_choices`). A value `*n`
stands for the segment at the n-th wildcard from the right, where the loop of `replacewildcard` ends
(`nthWild_eq`).
-/

namespace WvStreams

open Lib UniConfKey Option List

/-- The values of an inner generator. Where there is a child of the root, there is a root. -/
structure InnerTree where
  get : UniConfKey → WvString
  root : ∀ s : Segment, get [s] ≠ none → get [] ≠ none

namespace UniDefGen

def star : Byte := 42

/-- `inner()->get`, if there is an inner generator. -/
def innerGet (inner : Option InnerTree) (key : UniConfKey) : WvString :=
  inner.bind fun tree => tree.get key

def innerExists (inner : Option InnerTree) (key : UniConfKey) : Bool := (innerGet inner key).isSome

/-- The first segment of the string, and what is behind its slash. -/
def popSegment (p : Str) : Str × Option Str :=
  (p.takeWhile (· != slash), if slash ∈ p then some ((p.dropWhile (· != slash)).drop 1) else none)

/-- The characters that are left, with one for the end of the string. -/
def size (p : Option Str) : Nat := p.elim 0 fun p => p.length + 1

theorem size_popSegment (p : Str) : size (popSegment p).2 < size (some p) := by
  simp only [popSegment, size, elim_some]
  split
  · rename_i hmem
    have hle := (dropWhile_sublist (l := p) (· != slash)).length_le
    have hpos : 0 < p.length := length_pos_of_mem hmem
    simp only [elim_some, length_drop]
    omega
  · simp

/-- The strings are the segments that are left and the candidate so far, where each segment has a
slash in front. -/
def finddefault (inner : Option InnerTree) (p : Option Str) (q : Str) : UniConfKey :=
  match p with
  | none =>
    let q := q.drop 1
    if innerExists inner (ofString q) then ofString q else []
  | some p =>
    let r := (popSegment p).2
    -- try this literal path
    let result := finddefault inner r (q ++ slash :: (popSegment p).1)
    if result.length ≠ 0 then result
    -- replace what used to be p with a *
    else finddefault inner r (q ++ [slash, star])
termination_by size p
decreasing_by all_goals exact size_popSegment p

def keymap (inner : Option InnerTree) (unmapped_key : UniConfKey) : UniConfKey :=
  let mapped_key := finddefault inner (some (printable unmapped_key)) []
  if mapped_key.length = 0 then unmapped_key else mapped_key

def skipLiterals : Nat → UniConfKey → Nat → Option (UniConfKey × Nat)
  | 0, _, _ => none
  | n + 1, k, loc =>
    if iswild (k.lastN 1) then some (k, loc)
    else
      let k := k.removelast
      -- oops, ran out of segments!
      if k.isempty then none else skipLiterals n k (loc - 1)

/-- The `for` loop, with some turns left; the first one takes no segment away. -/
def nthWild (first : Bool) : Nat → UniConfKey → Nat → Option Nat
  | 0, _, loc => some loc
  | idx + 1, k, loc =>
    let (k, loc) := if first then (k, loc) else (k.removelast, loc - 1)
    (skipLiterals (k.length + 1) k loc).bind fun (k, loc) => nthWild false idx k loc

def replacewildcard (key defkey : UniConfKey) (value : WvString) : WvString :=
  let text := value.getD []
  -- check if the result wants a wildcard ('*n')
  if text.length < 2 ∨ text.head? ≠ some star then value
  else
    let idx := atoi (text.drop 1)
    if idx = 0 then value
    else (nthWild true idx.toNat defkey key.length).map fun loc => printable (key.segment (loc - 1))

def get (inner : Option InnerTree) (key : UniConfKey) : WvString :=
  let mapped_key := keymap inner key
  replacewildcard key mapped_key (innerGet inner mapped_key)

def choices : UniConfKey → List UniConfKey
  | [] => [[]]
  | s :: key => (choices key).map (s :: ·) ++ (choices key).map ([star] :: ·)

def spell (key : UniConfKey) : Str := key.flatMap (slash :: ·)

def rest (key : UniConfKey) : Option Str := if key = [] then none else some (printable key)

theorem popSegment_printable {s : Segment} (hs : slash ∉ s) (key : UniConfKey) :
    popSegment (printable (s :: key)) = (s, rest key) := by
  have hword : ∀ c ∈ s, (c != slash) = true := by
    intro c hc
    simpa using fun heq : c = slash => hs (heq ▸ hc)
  cases key with
  | nil =>
    have htake : s.takeWhile (· != slash) = s := takeWhile_eq_self_iff.mpr hword
    simp [popSegment, printable, rest, htake, hs]
  | cons t key =>
    rw [printable_cons, popSegment, takeWhile_append_of_pos hword, dropWhile_append_of_pos hword]
    simp [rest]

def spelled (key : UniConfKey) (q : Str) : List UniConfKey :=
  (choices key).map fun c => ofString ((q ++ spell c).drop 1)

theorem spelled_cons (s : Segment) (key : UniConfKey) (q : Str) :
    spelled (s :: key) q = spelled key (q ++ slash :: s) ++ spelled key (q ++ [slash, star]) := by
  simp [spelled, choices, spell, Function.comp_def]

/-- A candidate that is there and is not the root, which counts as none. -/
def usable (inner : Option InnerTree) (key : UniConfKey) : Bool :=
  innerExists inner key && !key.isempty

variable {key c : UniConfKey}

theorem finddefault_rest (inner : Option InnerTree) (hkey : ∀ s ∈ key, slash ∉ s) (q : Str) :
    finddefault inner (rest key) q = ((spelled key q).find? (usable inner)).getD [] := by
  induction key generalizing q with
  | nil =>
    have hone : spelled [] q = [ofString (q.drop 1)] := by simp [spelled, choices, spell]
    rw [rest, if_pos rfl, finddefault, hone, find?_singleton]
    cases hk : ofString (q.drop 1) with
    | nil => simp [usable, isempty]
    | cons t k => cases hexists : innerExists inner (t :: k) <;> simp [usable, isempty, hexists]
  | cons s key ih =>
    obtain ⟨hs, hkey⟩ := forall_mem_cons.mp hkey
    rw [rest, if_neg (cons_ne_nil s key), finddefault, popSegment_printable hs]
    simp only
    rw [ih hkey, ih hkey, spelled_cons, find?_append]
    cases hfound : (spelled key (q ++ slash :: s)).find? (usable inner) with
    | none => simp
    | some k =>
      have husable := find?_some hfound
      rw [usable, Bool.and_eq_true] at husable
      have hne : k.length ≠ 0 := by
        simpa [isempty] using husable.2
      simp [hne]

theorem length_choices (hc : c ∈ choices key) : c.length = key.length := by
  induction key generalizing c with
  | nil =>
    obtain rfl : c = [] := by simpa [choices] using hc
    rfl
  | cons s key ih =>
    simp only [choices, mem_append, List.mem_map] at hc
    obtain ⟨d, hd, rfl⟩ | ⟨d, hd, rfl⟩ := hc
    · rw [length_cons, length_cons, ih hd]
    · rw [length_cons, length_cons, ih hd]

theorem mem_choices (hc : c ∈ choices key) {s : Segment} (hs : s ∈ c) : s = [star] ∨ s ∈ key := by
  induction key generalizing c with
  | nil =>
    obtain rfl : c = [] := by simpa [choices] using hc
    cases hs
  | cons t key ih =>
    simp only [choices, mem_append, List.mem_map] at hc
    obtain ⟨d, hd, rfl⟩ | ⟨d, hd, rfl⟩ := hc
    · rcases mem_cons.mp hs with rfl | hs
      · exact Or.inr mem_cons_self
      · exact (ih hd hs).imp_right (mem_cons_of_mem t)
    · rcases mem_cons.mp hs with rfl | hs
      · exact Or.inl rfl
      · exact (ih hd hs).imp_right (mem_cons_of_mem t)

theorem dropLast_choices (hc : c ∈ choices key) : c.dropLast ∈ choices key.dropLast := by
  induction key generalizing c with
  | nil =>
    obtain rfl : c = [] := by simpa [choices] using hc
    exact hc
  | cons t key ih =>
    simp only [choices, mem_append, List.mem_map] at hc
    cases key with
    | nil =>
      obtain ⟨d, hd, rfl⟩ | ⟨d, hd, rfl⟩ := hc
      all_goals
        obtain rfl : d = [] := by simpa [choices] using hd
        simp [choices]
    | cons u key =>
      obtain ⟨d, hd, rfl⟩ | ⟨d, hd, rfl⟩ := hc
      all_goals
        have hlen := length_choices hd
        obtain ⟨v, d, rfl⟩ := exists_cons_of_length_pos (l := d) (by rw [hlen]; simp)
        have hrest := ih hd
        simp only [dropLast_cons_cons] at hrest ⊢
        simp [choices, hrest]

theorem valid_choices (hkey : key.Valid) (hc : c ∈ choices key) :
    c.Valid where
  inner hmem := by
    rcases mem_choices (dropLast_choices hc) hmem with h | h
    · cases h
    · exact hkey.inner h
  alone := by
    rintro rfl
    have hlen := length_choices hc
    obtain ⟨s, rfl⟩ := length_eq_one_iff.mp hlen.symm
    rcases mem_choices hc mem_cons_self with h | h
    · cases h
    · exact hkey.alone (congrArg (fun t => [t]) (mem_singleton.mp h).symm)

theorem spell_drop (key : UniConfKey) : (spell key).drop 1 = printable key := by
  cases key with
  | nil => rfl
  | cons s key =>
    induction key generalizing s with
    | nil => simp [spell, printable]
    | cons t key ih =>
      rw [printable_cons, ← ih t]
      simp [spell]

theorem spelled_valid (hkey : key.Valid) (hslash : ∀ s ∈ key, slash ∉ s) :
    spelled key [] = choices key := by
  have hsame : ∀ c ∈ choices key, ofString (([] ++ spell c).drop 1) = c := by
    intro c hc
    rw [nil_append, spell_drop]
    apply (valid_choices hkey hc).ofString_printable
    intro s hs
    rcases mem_choices hc hs with rfl | hs
    · decide
    · exact hslash s hs
  exact (map_congr_left hsame).trans (map_id _)

theorem finddefault_eq {inner : Option InnerTree} {s : Str}
    (hkey : innerGet inner (ofString s) = none) :
    finddefault inner (some (printable (ofString s))) [] =
      ((choices (ofString s)).find? (innerExists inner)).getD [] := by
  have hvalid := valid_ofString s
  have hslash := slash_notMem_ofString s
  by_cases hroot : ofString s = []
  · -- the string of the root has one segment for `strchr`, and `*` is looked for in its place
    have hexists : innerExists inner [] = false := by rw [innerExists, ← hroot, hkey]; rfl
    have hstar : innerExists inner [[star]] = false := by
      rw [hroot] at hkey
      cases inner with
      | none => rfl
      | some tree =>
        by_contra hget
        have hne : tree.get [[star]] ≠ none := by
          intro hnone
          simp [innerExists, innerGet, hnone] at hget
        exact tree.root [star] hne hkey
    have hspelled : spelled [[]] [] = [[], [[star]]] := rfl
    have hplain : ∀ s ∈ ([[]] : UniConfKey), slash ∉ s := by simp
    have hsearch := finddefault_rest inner hplain []
    rw [hspelled] at hsearch
    rw [hroot]
    refine Eq.trans hsearch ?_
    simp [choices, usable, hexists, hstar, isempty]
  · have hrest : rest (ofString s) = some (printable (ofString s)) := if_neg hroot
    have husable : ∀ c ∈ choices (ofString s), usable inner c = innerExists inner c := by
      intro c hc
      have hlen := length_choices hc
      have hne : c ≠ [] := by
        rintro rfl
        exact hroot (length_eq_zero_iff.mp hlen.symm)
      simp [usable, isempty, hne]
    rw [← hrest, finddefault_rest inner hslash, spelled_valid hvalid hslash, find?_congr husable]

def wildsFromRight (key : UniConfKey) : List Nat :=
  ((List.range key.length).filter fun i => wildSegment (key.getD i [])).reverse

theorem wildsFromRight_concat (key : UniConfKey) (s : Segment) :
    wildsFromRight (key ++ [s]) =
      if wildSegment s then key.length :: wildsFromRight key else wildsFromRight key := by
  have hfront : (List.range key.length).filter (fun i => wildSegment ((key ++ [s]).getD i [])) =
      (List.range key.length).filter fun i => wildSegment (key.getD i []) := by
    apply filter_congr
    intro i hi
    rw [getD_eq_getElem?_getD, getElem?_append_left (mem_range.mp hi), ← getD_eq_getElem?_getD]
  have hlast : (key ++ [s]).getD key.length [] = s := by simp
  rw [wildsFromRight, length_append, length_singleton, range_succ,
    filter_append, hfront, filter_singleton, hlast]
  cases wildSegment s <;> simp [wildsFromRight]

theorem lt_of_mem_wilds {i : Nat} (hi : i ∈ wildsFromRight key) : i < key.length := by
  simp only [wildsFromRight, mem_reverse, mem_filter, mem_range] at hi
  exact hi.1

theorem wildsFromRight_take {i : Nat} {more : List Nat} (h : wildsFromRight key = i :: more) :
    wildsFromRight (key.take i) = more := by
  induction key using reverseRecOn with
  | nil => cases h
  | append_singleton key s ih =>
    have hlt : i < (key ++ [s]).length := lt_of_mem_wilds (h ▸ mem_cons_self)
    rw [wildsFromRight_concat] at h
    split at h
    · obtain ⟨rfl, rfl⟩ := cons.inj h
      rw [take_left' rfl]
    · have hi : i < key.length := lt_of_mem_wilds (h ▸ mem_cons_self)
      rw [take_append_of_le_length hi.le]
      exact ih h

theorem iswild_last (key : UniConfKey) (s : Segment) :
    iswild ((key ++ [s]).lastN 1) = wildSegment s := by
  have hlast : (key ++ [s]).lastN 1 = collapse [s] := by
    rw [lastN, UniConfKey.range, take_length, length_append, length_singleton,
      Nat.add_sub_cancel, drop_left' rfl]
  rw [hlast, collapse]
  by_cases hs : s = []
  · subst hs
    rfl
  · rw [if_neg (by simpa using hs)]
    simp [iswild]

theorem removelast_concat (hkey : key.Plain) (s : Segment) : removelast (key ++ [s]) = key := by
  rw [removelast, dropLast_concat, hkey.collapse_eq]

theorem plain_of_valid_concat {s : Segment} (h : Valid (key ++ [s])) : key.Plain := by
  have hinner := h.inner
  rwa [dropLast_concat] at hinner

theorem skipLiterals_eq (hkey : key.Valid) {n : Nat} (hn : key.length < n) :
    skipLiterals n key key.length =
      (wildsFromRight key).head?.map fun i => (key.take (i + 1), i + 1) := by
  induction key using reverseRecOn generalizing n with
  | nil =>
    obtain ⟨n, rfl⟩ : ∃ m, n = m + 1 := ⟨n - 1, by simp at hn; omega⟩
    rfl
  | append_singleton key s ih =>
    have hplain := plain_of_valid_concat hkey
    rw [length_append, length_singleton] at hn
    obtain ⟨n, rfl⟩ : ∃ m, n = m + 1 := ⟨n - 1, by omega⟩
    rw [skipLiterals, iswild_last, wildsFromRight_concat, length_append, length_singleton]
    by_cases hs : wildSegment s = true
    · rw [if_pos hs, if_pos hs]
      simp
    · rw [if_neg hs, if_neg hs, removelast_concat hplain, Nat.add_sub_cancel]
      by_cases hempty : key = []
      · subst hempty
        rfl
      · have hne : ¬ isempty key = true := by simpa [isempty] using hempty
        rw [if_neg hne, ih hplain.valid (by omega)]
        cases hwilds : wildsFromRight key with
        | nil => rfl
        | cons i more =>
          have hlt : i < key.length := lt_of_mem_wilds (hwilds ▸ mem_cons_self)
          rw [head?_cons, map_some, map_some, take_append_of_le_length (by omega)]

theorem nthWild_eq (hkey : key.Valid) (n : Nat) :
    nthWild true (n + 1) key key.length = ((wildsFromRight key)[n]?).map (· + 1) := by
  induction n generalizing key with
  | zero =>
    rw [nthWild]
    simp only [if_true]
    rw [skipLiterals_eq hkey (by omega)]
    cases wildsFromRight key <;> rfl
  | succ n ih =>
    rw [nthWild]
    simp only [if_true]
    rw [skipLiterals_eq hkey (by omega)]
    cases hwilds : wildsFromRight key with
    | nil => rfl
    | cons i more =>
      have hlt : i < key.length := lt_of_mem_wilds (hwilds ▸ mem_cons_self)
      have htake : key.take (i + 1) = key.take i ++ [key[i]] := by
        rw [take_concat_get' key i hlt]
      have hvalid : Valid (key.take (i + 1)) :=
        hkey.firstN (i + 1) ▸ hkey.range 0 (i + 1)
      have hplain : Plain (key.take i) := plain_of_valid_concat (htake ▸ hvalid)
      have hnext : nthWild false (n + 1) (key.take (i + 1)) (i + 1) =
          nthWild true (n + 1) (removelast (key.take (i + 1))) i := rfl
      rw [head?_cons, map_some, bind_some]
      simp only
      have hlen : (key.take i).length = i := length_take_of_le hlt.le
      rw [hnext, htake, removelast_concat hplain]
      have hrun := ih hplain.valid
      rw [hlen, wildsFromRight_take hwilds] at hrun
      rw [hrun, getElem?_cons_succ]

/-- The number behind a `*` at the start of a value; zero if there is none. -/
def wants (value : WvString) : Int :=
  if (value.getD []).head? = some star then atoi ((value.getD []).drop 1) else 0

/-- What becomes of the value of a candidate. -/
structure Answers (key c : UniConfKey) (value result : WvString) : Prop where
  plain : wants value = 0 → result = value
  wild : ∀ n : Nat, wants value = (n + 1 : Nat) →
    result = ((wildsFromRight c)[n]?).map fun i => key.getD i []

theorem printable_segment (key : UniConfKey) {i : Nat} (hi : i < key.length) :
    printable (key.segment i) = key.getD i [] := by
  have hrange : (key.take (i + 1)).drop i = [key.getD i []] := by
    rw [take_succ_eq_append_getElem hi, drop_left' (length_take_of_le hi.le)]
    simp [hi]
  rw [UniConfKey.segment, UniConfKey.range, hrange, collapse]
  by_cases hnil : key.getD i [] = []
  · rw [hnil, if_pos rfl]
    rfl
  · rw [if_neg (by simpa using hnil)]
    simp [printable]

theorem replacewildcard_eq (hc : c.Valid) (hlen : c.length = key.length) (value : WvString) :
    Answers key c value (replacewildcard key c value) := by
  have hstart : wants value ≠ 0 → ¬ ((value.getD []).length < 2 ∨
      (value.getD []).head? ≠ some star) := by
    intro hwants
    rw [wants] at hwants
    split at hwants
    · rename_i hhead
      intro h
      rcases h with h | h
      · have hshort : (value.getD []).drop 1 = [] := by
          rw [drop_eq_nil_iff]
          omega
        rw [hshort] at hwants
        exact hwants rfl
      · exact h hhead
    · exact absurd rfl hwants
  constructor
  · intro hzero
    rw [replacewildcard]
    by_cases hform : (value.getD []).length < 2 ∨ (value.getD []).head? ≠ some star
    · exact if_pos hform
    · have hhead : (value.getD []).head? = some star := by
        by_contra h
        exact hform (Or.inr h)
      rw [wants, if_pos hhead] at hzero
      simp only [if_neg hform, hzero, if_true]
  · intro n hn
    have hform := hstart (by omega)
    have hhead : (value.getD []).head? = some star := by
      by_contra h
      exact hform (Or.inr h)
    rw [wants, if_pos hhead] at hn
    have hne : ¬ ((n + 1 : Nat) : Int) = 0 := by omega
    rw [replacewildcard]
    simp only [if_neg hform, hn, if_neg hne, Int.toNat_natCast]
    rw [← hlen, nthWild_eq hc]
    cases hwild : (wildsFromRight c)[n]? with
    | none => rfl
    | some i =>
      have hlt : i < key.length := hlen ▸ lt_of_mem_wilds (mem_of_getElem? hwild)
      simp [printable_segment key hlt]

/-- The value for a key that is not there itself: that of the first candidate that is there. -/
theorem get_default (inner : Option InnerTree) (s : Str)
    (hkey : innerGet inner (ofString s) = none) :
    (∀ c, (choices (ofString s)).find? (innerExists inner) = some c →
      Answers (ofString s) c (innerGet inner c) (get inner (ofString s))) ∧
    ((choices (ofString s)).find? (innerExists inner) = none → get inner (ofString s) = none) := by
  have hfind := finddefault_eq hkey
  constructor
  · intro c hfound
    have hmem := mem_of_find?_eq_some hfound
    have hlen := length_choices hmem
    have hne : ¬ c.length = 0 := by
      intro hzero
      have hroot : ofString s = [] := length_eq_zero_iff.mp (hlen ▸ hzero)
      obtain rfl : c = [] := length_eq_zero_iff.mp hzero
      have hexists := find?_some hfound
      rw [innerExists, ← hroot, hkey] at hexists
      cases hexists
    have hmap : keymap inner (ofString s) = c := by
      rw [keymap, hfind, hfound, getD_some]
      exact if_neg hne
    rw [get, hmap]
    exact replacewildcard_eq (valid_choices (valid_ofString s) hmem) hlen (innerGet inner c)
  · intro hnone
    have hmap : keymap inner (ofString s) = ofString s := by
      rw [keymap, hfind, hnone]
      rfl
    rw [get, hmap]
    simp only [hkey]
    rfl

def oneDefault (c : UniConfKey) (value : Str) : InnerTree where
  get key := if key = [] then some [] else if key = c then some value else none
  root _ _ := by simp

/-- With the default `*2` for `*/y/*`. -/
theorem get_default_wildcards :
    let inner := oneDefault [[star], bytes "y", [star]] (bytes "*2")
    innerGet (some inner) (ofString (bytes "x/y/z")) = none ∧
      get (some inner) (ofString (bytes "x/y/z")) = some (bytes "x") := by
  intro inner
  have hkey : innerGet (some inner) (ofString (bytes "x/y/z")) = none := by decide
  have hfound := (get_default (some inner) (bytes "x/y/z") hkey).1 [[star], bytes "y", [star]]
    (by decide)
  exact ⟨hkey, hfound.wild 1 (by decide)⟩

/-- `*1y` is not of the form `*n`, but the segment is put in its place too. -/
theorem not_get_default : ¬ ∀ (inner : Option InnerTree) (s : Str) (c : UniConfKey),
    innerGet inner (ofString s) = none → (choices (ofString s)).find? (innerExists inner) = some c →
    (∀ digits, innerGet inner c = some (star :: digits) → ∃ d ∈ digits, isdigit d = false) →
    get inner (ofString s) = innerGet inner c := by
  intro h
  have hkey : innerGet (some (oneDefault [[star]] [42, 49, 121])) (ofString (bytes "x")) = none := by decide
  have hfind := finddefault_eq hkey
  have hmap : keymap (some (oneDefault [[star]] [42, 49, 121])) (ofString (bytes "x")) = [[star]] := by
    rw [keymap, hfind]
    decide
  have hget := h (some (oneDefault [[star]] [42, 49, 121])) (bytes "x") [[star]] hkey (by decide) (by
    intro digits hdigits
    obtain rfl : digits = [49, 121] := (cons.inj (some.inj hdigits)).2.symm
    exact ⟨121, by decide, by decide⟩)
  rw [get, hmap] at hget
  exact absurd hget (by decide)

end UniDefGen

def UniTempGen.innerTree (g : UniTempGen) : InnerTree where
  get := g.get
  root s h := by
    intro hroot
    rw [g.get_eq] at h hroot
    have hclosed := g.content_closed [] (path [s]) hroot
    apply h
    rw [refGet]
    split
    · rfl
    · exact hclosed

end WvStreams
