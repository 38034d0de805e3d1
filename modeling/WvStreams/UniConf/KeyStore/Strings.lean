import Mathlib.Data.List.TakeWhile
import WvStreams.UniConf.KeyStore.Heap

/-!
# The store of a string

A string is split at its slashes into parts. One at its start and those at its end leave an empty
part each, so that the vector, which is made as large as there are parts, has room for the empty
segment of a trailing slash (`newStore_eq`).
-/

namespace WvStreams

open List

open SegmentVector

open UniConfKey

namespace KeyHeap

/-- The loop of `strcoll_split` from a slash on, in a number of turns. -/
def splitFrom : Nat → Str → List Str
  | 0, _ => []
  | fuel + 1, sptr =>
    if sptr = [] then []
    else
      (sptr.dropWhile (· == slash)).takeWhile (· != slash) ::
        splitFrom fuel ((sptr.dropWhile (· == slash)).dropWhile (· != slash))

/-- `parts.split(key, "/")`, where the first turn skips no slashes. -/
def split (s : Str) : List Str :=
  if s = [] then [[]]
  else s.takeWhile (· != slash) :: splitFrom s.length (s.dropWhile (· != slash))

def newStore (size : Nat) (key : Str) : Option SegmentVector :=
  if key = [] then some (.ofSize size)
  else do
    let parts := split key
    let v ← (SegmentVector.ofSize size).resize parts.length 0
    let v ← (parts.filter (· ≠ [])).foldlM SegmentVector.append v
    if key.getLast? = some slash ∧ 0 < v.used then v.append [] else some v

section Parts

variable {s : Str}

theorem filter_splitOn (s : Str) : (s.splitOn slash).filter (· ≠ []) =
    [s.takeWhile (· != slash)].filter (· ≠ []) ++
      ((s.dropWhile (· != slash)).splitOn slash).filter (· ≠ []) := by
  have hsplit := takeWhile_append_dropWhile (p := (· != slash)) (l := s)
  have hfirst : slash ∉ s.takeWhile (· != slash) := by
    intro hmem
    have hne := mem_takeWhile_imp hmem
    rw [bne_self_eq_false] at hne
    cases hne
  cases hrest : s.dropWhile (· != slash) with
  | nil =>
    rw [hrest, append_nil] at hsplit
    rw [hsplit] at hfirst ⊢
    rw [splitOn_eq_singleton hfirst]
    exact (append_nil _).symm
  | cons c rest =>
    have hc : c = slash := by
      have hhead := head?_dropWhile_not (· != slash) s
      rw [hrest] at hhead
      simpa using hhead
    subst hc
    have hnil : (slash :: rest).splitOn slash = [] :: rest.splitOn slash :=
      splitOn_append_cons_self [] rest
    rw [hnil]
    conv_lhs => rw [← hsplit, hrest, splitOn_append_cons_self_of_not_mem hfirst]
    rw [← singleton_append, filter_append]
    rfl

theorem filter_splitOn_slashes (s : Str) :
    ((s.dropWhile (· == slash)).splitOn slash).filter (· ≠ []) =
      (s.splitOn slash).filter (· ≠ []) := by
  induction s with
  | nil => rfl
  | cons c s ih =>
    by_cases hc : c = slash
    · have hsplit : (slash :: s).splitOn slash = [] :: s.splitOn slash :=
        splitOn_append_cons_self [] s
      rw [hc, hsplit, dropWhile_cons, if_pos (beq_self_eq_true slash), ih]
      rfl
    · rw [dropWhile_cons_of_neg (by simpa using hc)]

theorem length_turn (hne : s ≠ []) :
    ((s.dropWhile (· == slash)).dropWhile (· != slash)).length < s.length := by
  cases s with
  | nil => exact absurd rfl hne
  | cons c s =>
    have hrest := (dropWhile_sublist (l := s.dropWhile (· == slash)) (· != slash)).length_le
    have hslashes := (dropWhile_sublist (l := s) (· == slash)).length_le
    have hword := (dropWhile_sublist (l := s) (· != slash)).length_le
    by_cases hc : c = slash
    · rw [hc, dropWhile_cons, if_pos (beq_self_eq_true slash), length_cons]
      omega
    · rw [dropWhile_cons_of_neg (by simpa using hc),
        dropWhile_cons_of_pos (by simpa using hc), length_cons]
      omega

theorem filter_splitFrom {fuel : Nat} (hfuel : s.length ≤ fuel) :
    (splitFrom fuel s).filter (· ≠ []) = (s.splitOn slash).filter (· ≠ []) := by
  induction fuel generalizing s with
  | zero =>
    obtain rfl := length_eq_zero_iff.mp (Nat.le_zero.mp hfuel)
    rfl
  | succ fuel ih =>
    rw [splitFrom]
    by_cases hne : s = []
    · rw [if_pos hne, hne]
      rfl
    · have hturn := length_turn hne
      rw [if_neg hne, ← filter_splitOn_slashes s, filter_splitOn, ← singleton_append,
        filter_append, ih (by omega)]

theorem filter_split (s : Str) : (split s).filter (· ≠ []) = (s.splitOn slash).filter (· ≠ []) := by
  rw [split]
  by_cases hne : s = []
  · rw [if_pos hne, hne]
    rfl
  · have hrest := (dropWhile_sublist (l := s) (· != slash)).length_le
    rw [if_neg hne, filter_splitOn, ← singleton_append, filter_append, filter_splitFrom hrest]

theorem getLast?_rest {t : Str} (hlast : s.getLast? = some slash) (hsuffix : t <:+ s)
    (hne : t ≠ []) : t.getLast? = some slash := by
  obtain ⟨front, rfl⟩ := hsuffix
  rwa [getLast?_append_of_ne_nil _ hne] at hlast

theorem word_ends (hlast : s.getLast? = some slash) : s.dropWhile (· != slash) ≠ [] := by
  intro hnil
  have hall := dropWhile_eq_nil_iff.mp hnil slash (mem_of_getLast? hlast)
  rw [bne_self_eq_false] at hall
  cases hall

theorem empty_mem_splitFrom {fuel : Nat} (hfuel : s.length ≤ fuel)
    (hlast : s.getLast? = some slash) : ([] : Str) ∈ splitFrom fuel s := by
  induction fuel generalizing s with
  | zero =>
    obtain rfl := length_eq_zero_iff.mp (Nat.le_zero.mp hfuel)
    cases hlast
  | succ fuel ih =>
    have hne : s ≠ [] := by
      rintro rfl
      cases hlast
    have hturn := length_turn hne
    rw [splitFrom, if_neg hne]
    by_cases hnil : s.dropWhile (· == slash) = []
    · rw [hnil]
      exact mem_cons_self
    · have hmiddle := getLast?_rest hlast (dropWhile_suffix (· == slash)) hnil
      have hend := getLast?_rest hmiddle (dropWhile_suffix (· != slash)) (word_ends hmiddle)
      exact mem_cons_of_mem _ (ih (by omega) hend)

theorem length_split (hlast : s.getLast? = some slash) :
    ((split s).filter (· ≠ [])).length < (split s).length := by
  apply length_filter_lt_length_iff_exists.mpr
  refine ⟨[], ?_, by simp⟩
  have hne : s ≠ [] := by
    rintro rfl
    cases hlast
  have hrest := (dropWhile_sublist (l := s) (· != slash)).length_le
  have hend := getLast?_rest hlast (dropWhile_suffix (· != slash)) (word_ends hlast)
  rw [split, if_neg hne]
  exact mem_cons_of_mem _ (empty_mem_splitFrom hrest hend)

end Parts

theorem resize_ofSize (size n : Nat) : (ofSize size).resize n 0 = some (.ofSize (max size n)) := by
  by_cases hle : n ≤ size
  · rw [resize_fits (by rw [ofSize, length_replicate]; exact hle), max_eq_left hle]
  · have hlt : (ofSize size).vec.length < n := by
      rw [ofSize, length_replicate]
      omega
    have hkept : (ofSize size).kept n 0 = 0 := Nat.min_zero _
    rw [resize_grow hlt (Nat.zero_le _), hkept, max_eq_right (by omega)]
    rfl

theorem newStore_eq (size : Nat) (key : Str) : ∃ rest,
    newStore size key = some ⟨ofString key ++ rest, (ofString key).length⟩ := by
  rw [newStore]
  by_cases hne : key = []
  · rw [if_pos hne, hne]
    exact ⟨List.replicate size [], rfl⟩
  rw [if_neg hne]
  have hnames := filter_split key
  have hshort := List.length_filter_le (· ≠ ([] : Segment)) (split key)
  have hfold := foldlM_append_ofSize (hshort.trans (le_max_right size _))
  show ∃ rest, ((ofSize size).resize (split key).length 0).bind _ = _
  rw [resize_ofSize]
  show ∃ rest, Option.bind (((split key).filter (· ≠ [])).foldlM SegmentVector.append
    (.ofSize (max size (split key).length))) _ = _
  rw [hfold, Option.bind_some, ofString, ← hnames]
  by_cases hslash : key.getLast? = some slash ∧ (split key).filter (· ≠ []) ≠ []
  · rw [if_pos ⟨hslash.1, List.length_pos_iff.mpr hslash.2⟩, if_pos hslash]
    have hroom := length_split hslash.1
    have hboth : ((split key).filter (· ≠ []) ++ [[]]).length ≤ max size (split key).length := by
      rw [List.length_append, List.length_singleton]
      exact hroom.trans_le (le_max_right _ _)
    have hlonger := foldlM_append_ofSize hboth
    rw [List.foldlM_append, hfold] at hlonger
    refine ⟨_, Eq.trans ?_ hlonger⟩
    show _ = Option.bind (SegmentVector.append _ []) some
    rw [Option.bind_fun_some]
  · have hnot : ¬ (key.getLast? = some slash ∧ 0 < ((split key).filter (· ≠ [])).length) := by
      rw [List.length_pos_iff]
      exact hslash
    rw [if_neg hnot, if_neg hslash]
    exact ⟨_, rfl⟩

end KeyHeap

end WvStreams
