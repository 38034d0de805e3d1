import Mathlib.Data.Finset.Lattice.Fold
import WvStreams.UniConf.XIter

/-!
# `UniConfKey::matches`

A pattern is read from the left as long as its segments are wild. What follows from the first
segment on that is not wild is compared as it stands, wildcards in it too: no other arrangement is
supported (`matches_iff`).
-/

namespace WvStreams

open Lib List XIter

namespace UniConfKey

/-- How `matches` reads a pattern. -/
def leading (pattern : UniConfKey) : List (Wild Segment) :=
  wilds (pattern.takeWhile wildSegment) ++ (path (pattern.dropWhile wildSegment)).map .lit

/-- A key that a pattern is for. A trailing slash is passed over by wildcards only. -/
def Reads (key pattern : UniConfKey) : Prop :=
  Wild.Matches pattern.leading key.path ∧
    (key.hastrailingslash = true → ∀ s ∈ pattern, wildSegment s = true)

theorem leading_wild {s : Segment} (h : wildSegment s = true) (rest : UniConfKey) :
    leading (s :: rest) = wild s :: leading rest := by
  rw [leading, takeWhile_cons_of_pos h, dropWhile_cons_of_pos h]
  rfl

theorem leading_lit {s : Segment} (h : wildSegment s = false) (rest : UniConfKey) :
    leading (s :: rest) = (path (s :: rest)).map .lit := by
  have hneg : ¬ wildSegment s = true := by simp [h]
  rw [leading, takeWhile_cons_of_neg hneg, dropWhile_cons_of_neg hneg]
  rfl

theorem isempty_iff {key : UniConfKey} : key.isempty = true ↔ key = [] := isEmpty_iff

section Parts

variable {key : UniConfKey}

theorem Plain.drop (h : key.Plain) (n : Nat) : UniConfKey.Plain (key.drop n) :=
  fun hmem => h (mem_of_mem_drop hmem)

theorem Plain.path_drop (h : key.Plain) (n : Nat) : path (key.drop n) = key.path.drop n := by
  rw [(h.drop n).path_eq, h.path_eq, map_drop]

theorem removefirstN_eq (key : UniConfKey) (n : Nat) :
    key.removefirstN n = collapse (key.drop n) := by
  rw [UniConfKey.removefirstN, range, take_length]

theorem removefirst_eq (key : UniConfKey) : key.removefirst = key.removefirstN 1 := by
  rw [removefirstN_eq, removefirst]

theorem Valid.removefirstN (h : key.Valid) (n : Nat) : (key.removefirstN n).Valid :=
  h.range n key.length

theorem Valid.path_removefirstN (h : key.Valid) (n : Nat) :
    (key.removefirstN n).path = key.path.drop n := by
  rw [removefirstN_eq, path_collapse]
  rcases h.cases with hplain | ⟨front, -, hfront, rfl⟩
  · exact hplain.path_drop n
  · have hslash : path (drop (n - front.length) [[]]) = [] := by
      cases n - front.length with
      | zero => rfl
      | succ m => rw [drop_succ_cons, drop_nil, path_nil]
    rw [drop_append, path_append, hslash, append_nil, path_slash]
    exact hfront.path_drop n

theorem Valid.slash_removefirstN (h : key.Valid) {n : Nat} (hn : key.path.drop n ≠ []) :
    (key.removefirstN n).hastrailingslash = key.hastrailingslash := by
  rw [removefirstN_eq]
  rcases h.cases with hplain | ⟨front, -, hfront, rfl⟩
  · rw [(hplain.drop n).collapse_eq, (hplain.drop n).not_slash, hplain.not_slash]
  · rw [path_slash, ← hfront.path_drop] at hn
    have hdrop : front.drop n ≠ [] := fun hnil => hn (by rw [hnil, path_nil])
    have hlt : n < front.length := by
      by_contra hle
      exact hdrop (drop_eq_nil_of_le (Nat.le_of_not_lt hle))
    rw [drop_append_of_le_length hlt.le, collapse, if_neg (by simpa using hdrop),
      slash_hastrailingslash, slash_hastrailingslash]

theorem Valid.path_eq_nil (h : key.Valid) : key.path = [] ↔ key = [] := by
  constructor
  · intro hpath
    rcases h.cases with hplain | ⟨front, hne, hfront, rfl⟩
    · rwa [hplain.path_eq, map_eq_nil_iff] at hpath
    · rw [path_slash, hfront.path_eq, map_eq_nil_iff] at hpath
      exact absurd hpath hne
  · rintro rfl
    rfl

end Parts

section Matches

variable {key pattern : UniConfKey}

theorem matches_leading_self (h : pattern.Plain) : Wild.Matches pattern.leading pattern.path := by
  induction pattern with
  | nil => rfl
  | cons s rest ih =>
    obtain ⟨hs, hrest⟩ := plain_cons.mp h
    by_cases hwild : wildSegment s = true
    · rw [leading_wild hwild, path_cons_of_ne hs, wild]
      split
      · exact ⟨fold s, path rest, rfl, ih hrest⟩
      · split
        · exact ⟨path rest, suffix_cons _ _, ih hrest⟩
        · rename_i hany hmany
          simp [wildSegment, hany, hmany] at hwild
    · rw [leading_lit (by simpa using hwild)]
      exact Wild.matches_lits_iff.mpr rfl

theorem reads_of_same (hpattern : pattern.Plain) (h : key.same pattern = true) :
    Reads key pattern := by
  have hfold : key.map fold = pattern.map fold := by simpa [same] using h
  have hslash : key.hastrailingslash = false := by
    rw [hastrailingslash_congr hfold, hpattern.not_slash]
  refine ⟨?_, fun hslash' => ?_⟩
  · rw [path_congr hfold]
    exact matches_leading_self hpattern
  · rw [hslash] at hslash'
    cases hslash'

theorem wild_of_matches_nil (h : Wild.Matches pattern.leading []) (hpattern : pattern.Plain) :
    ∀ s ∈ pattern, wildSegment s = true := by
  induction pattern with
  | nil => exact forall_mem_nil _
  | cons s rest ih =>
    obtain ⟨hs, hrest⟩ := plain_cons.mp hpattern
    by_cases hwild : wildSegment s = true
    · have hmany := Wild.many_of_matches_nil h
      rw [leading_wild hwild, forall_mem_cons] at hmany
      rw [leading_wild hwild, hmany.1] at h
      obtain ⟨q, hq, hmatches⟩ := h
      rw [suffix_nil.mp hq] at hmatches
      exact forall_mem_cons.mpr ⟨hwild, ih hmatches hrest⟩
    · rw [leading_lit (by simpa using hwild), Wild.matches_lits_iff, path_cons_of_ne hs] at h
      cases h

variable {rest : UniConfKey}

theorem reads_lit_iff (hkey : key.Valid) {s : Segment} (hpattern : UniConfKey.Plain (s :: rest))
    (hs : wildSegment s = false) : Reads key (s :: rest) ↔ key.same (s :: rest) = true := by
  constructor
  · rintro ⟨hmatches, hslash⟩
    rw [leading_lit hs, Wild.matches_lits_iff] at hmatches
    rcases hkey.cases with hplain | ⟨front, -, -, rfl⟩
    · rw [hplain.path_eq, hpattern.path_eq] at hmatches
      rw [same, hmatches]
      exact beq_self_eq_true _
    · have hall := hslash (slash_hastrailingslash front) s mem_cons_self
      rw [hs] at hall
      cases hall
  · exact reads_of_same hpattern

theorem reads_removefirstN (hkey : key.Valid) (hpattern : pattern.Plain) (n : Nat) :
    Reads (key.removefirstN n) pattern ↔ Wild.Matches pattern.leading (key.path.drop n) ∧
      (key.hastrailingslash = true → ∀ s ∈ pattern, wildSegment s = true) := by
  rw [Reads, hkey.path_removefirstN]
  apply and_congr_right
  intro hmatches
  by_cases hnil : key.path.drop n = []
  · -- whether or not a slash is left, nothing but wildcards is
    rw [hnil] at hmatches
    have hall := wild_of_matches_nil hmatches hpattern
    exact iff_of_true (fun _ => hall) fun _ => hall
  · rw [hkey.slash_removefirstN hnil]

theorem reads_one_iff (hkey : key.Valid) (hrest : rest.Plain) :
    Reads key ([42] :: rest) ↔ key ≠ [] ∧ Reads key.removefirst rest := by
  have hwild : wildSegment [42] = true := rfl
  have hone : wild [42] = .one := rfl
  rw [removefirst_eq, reads_removefirstN hkey hrest, Reads, leading_wild hwild, hone,
    ne_eq, ← hkey.path_eq_nil, ← and_assoc]
  apply and_congr
  · constructor
    · rintro ⟨a, q, hpath, hq⟩
      rw [hpath]
      exact ⟨cons_ne_nil a q, hq⟩
    · rintro ⟨hne, hq⟩
      obtain ⟨a, q, hpath⟩ := exists_cons_of_ne_nil hne
      rw [hpath] at hq ⊢
      exact ⟨a, q, rfl, hq⟩
  · simp [hwild]

theorem length_path_le (key : UniConfKey) : key.path.length ≤ key.length := by
  rw [path, length_map]
  exact length_filter_le _ key

theorem reads_many_iff (hkey : key.Valid) (hrest : rest.Plain) :
    Reads key ([46, 46, 46] :: rest) ↔ ∃ n ≤ key.length, Reads (key.removefirstN n) rest := by
  have hwild : wildSegment [46, 46, 46] = true := rfl
  have hmany : wild [46, 46, 46] = .many := rfl
  simp only [reads_removefirstN hkey hrest]
  rw [Reads, leading_wild hwild, hmany]
  constructor
  · rintro ⟨⟨q, hq, hmatches⟩, hslash⟩
    rw [suffix_iff_eq_drop] at hq
    refine ⟨key.path.length - q.length, ?_, by rwa [← hq], ?_⟩
    · exact (Nat.sub_le _ _).trans (length_path_le key)
    · exact fun h => (forall_mem_cons.mp (hslash h)).2
  · rintro ⟨n, -, hmatches, hslash⟩
    refine ⟨⟨_, drop_suffix n _, hmatches⟩, fun h => ?_⟩
    exact forall_mem_cons.mpr ⟨hwild, hslash h⟩

theorem matchesLoop_iff (hpattern : pattern.Plain) {n : Nat} (hn : pattern.length ≤ n)
    (hkey : key.Valid) : matchesLoop n key pattern = true ↔ Reads key pattern := by
  induction pattern generalizing n key with
  | nil =>
    have hsame : key.same [] = true ↔ Reads key [] := by
      rw [same, beq_iff_eq, map_nil, map_eq_nil_iff, ← hkey.path_eq_nil, Reads]
      exact ⟨fun h => ⟨h, fun _ => forall_mem_nil _⟩, And.left⟩
    cases n with
    | zero => exact hsame
    | succ n =>
      rw [← hsame, matchesLoop]
      cases key.same [] with
      | true => simp
      | false => simp [first, collapse, ANY, RECURSIVE_ANY, same]
  | cons s rest ih =>
    obtain ⟨hs, hrest⟩ := plain_cons.mp hpattern
    cases n with
    | zero => cases hn
    | succ n =>
      have hn' := Nat.le_of_succ_le_succ hn
      rw [matchesLoop, first_cons hpattern, removefirst_cons hpattern]
      dsimp only
      rw [same_any, same_recursive_any]
      by_cases hsame : key.same (s :: rest) = true
      · rw [if_pos hsame]
        exact iff_of_true rfl (reads_of_same hpattern hsame)
      rw [if_neg hsame]
      by_cases hany : s = [42]
      · subst hany
        rw [reads_one_iff hkey hrest, if_pos (decide_eq_true rfl), removefirst_eq]
        have hpart := ih hrest hn' (hkey.removefirstN 1)
        by_cases hnil : key = []
        · rw [if_pos (isempty_iff.mpr hnil)]
          simp [hnil]
        · rw [if_neg (fun h => hnil (isempty_iff.mp h)), hpart]
          exact (and_iff_right hnil).symm
      rw [if_neg (by simpa using hany)]
      by_cases hrec : s = [46, 46, 46]
      · subst hrec
        rw [reads_many_iff hkey hrest, if_pos (decide_eq_true rfl)]
        by_cases hnil : rest = []
        · rw [if_pos (isempty_iff.mpr hnil), hnil]
          refine iff_of_true rfl ⟨key.length, le_refl _, ?_⟩
          rw [reads_removefirstN hkey plain_nil, drop_eq_nil_of_le (length_path_le key)]
          exact ⟨rfl, fun _ => forall_mem_nil _⟩
        · rw [if_neg (fun h => hnil (isempty_iff.mp h)), any_eq_true]
          constructor
          · rintro ⟨n', hmem, hmatches⟩
            have hle := Nat.le_of_lt_succ (mem_range.mp hmem)
            exact ⟨n', hle, (ih hrest hn' (hkey.removefirstN n')).mp hmatches⟩
          · rintro ⟨n', hle, hreads⟩
            refine ⟨n', mem_range.mpr (Nat.lt_succ_of_le hle), ?_⟩
            exact (ih hrest hn' (hkey.removefirstN n')).mpr hreads
      · rw [if_neg (by simpa using hrec)]
        have hlit : wildSegment s = false := by simp [wildSegment, hany, hrec]
        rw [reads_lit_iff hkey hpattern hlit]
        exact iff_of_false Bool.false_ne_true hsame

end Matches

mutual

/-- `matches` in a number of calls and turns of the loop. -/
def matchesWithin : Nat → UniConfKey → UniConfKey → Option Bool
  | 0, _, _ => none
  | fuel + 1, key, pattern =>
    if key.same pattern then some true
    else
      let head := pattern.first
      if head.same ANY then
        if key.isempty then some false
        else matchesWithin fuel key.removefirst pattern.removefirst
      else if head.same RECURSIVE_ANY then
        let tail := pattern.removefirst
        if tail.isempty then some true else partsWithin fuel key tail 0
      else some false

/-- The loop of `matches` from some `n` on. -/
def partsWithin : Nat → UniConfKey → UniConfKey → Nat → Option Bool
  | 0, _, _, _ => none
  | fuel + 1, key, tail, n =>
    let part := key.removefirstN n
    (matchesWithin fuel part tail).bind fun matched =>
      if matched then some true
      else if part.isempty then some false
      else partsWithin fuel key tail (n + 1)

end

section Calls

variable {key pattern : UniConfKey}

theorem removefirstN_nil {n n' : Nat} (h : key.removefirstN n = []) (hn : n ≤ n') :
    key.removefirstN n' = [] := by
  have hdrop : key.drop n' = (key.drop n).drop (n' - n) := by
    rw [drop_drop, Nat.add_sub_cancel' hn]
  rw [removefirstN_eq, collapse] at h
  rw [removefirstN_eq, hdrop]
  split at h
  · rename_i hslash
    rw [hslash]
    cases n' - n with
    | zero => rfl
    | succ m => rw [drop_succ_cons, drop_nil]; rfl
  · rw [h, drop_nil]
    rfl

theorem partsWithin_eq {fuel : Nat} (h : ∀ n m, n ≤ key.length → fuel ≤ m →
    matchesWithin m (key.removefirstN n) pattern = some (matches_ (key.removefirstN n) pattern))
    {k n m : Nat} (hk : n + k = key.length) (hm : fuel + k < m) :
    partsWithin m key pattern n = some ((range' n (k + 1)).any fun n' =>
      matches_ (key.removefirstN n') pattern) := by
  induction k generalizing n m with
  | zero =>
    cases m with
    | zero => cases hm
    | succ m =>
      have hpart : key.removefirstN n = [] := by
        rw [removefirstN_eq, drop_eq_nil_of_le (by omega)]
        rfl
      rw [partsWithin, h n m (by omega) (by omega), hpart]
      cases hmatch : matches_ [] pattern with
      | true => simp [hpart, hmatch]
      | false => simp [hpart, hmatch, isempty]
  | succ k ih =>
    cases m with
    | zero => cases hm
    | succ m =>
      rw [partsWithin, h n m (by omega) (by omega), range'_succ, any_cons]
      dsimp only [Option.bind_some]
      cases hmatch : matches_ (key.removefirstN n) pattern with
      | true => rfl
      | false =>
        rw [if_neg Bool.false_ne_true, Bool.false_or]
        by_cases hnil : key.removefirstN n = []
        · rw [if_pos (isempty_iff.mpr hnil), eq_comm, Option.some_inj, any_eq_false]
          intro n' hn'
          rw [removefirstN_nil hnil (by simp at hn'; omega), ← hnil, hmatch]
          exact Bool.false_ne_true
        · rw [if_neg fun hempty => hnil (isempty_iff.mp hempty)]
          exact ih (by omega) (by omega)

theorem matchesWithin_eq (hpattern : pattern.Plain) (key : UniConfKey) :
    ∃ fuel, ∀ n, fuel ≤ n → matchesWithin n key pattern = some (matches_ key pattern) := by
  induction pattern generalizing key with
  | nil =>
    refine ⟨1, fun n hn => ?_⟩
    cases n with
    | zero => cases hn
    | succ n =>
      rw [matchesWithin, matches_, length_nil, matchesLoop]
      cases key.same [] with
      | true | false => rfl
  | cons s rest ih =>
    have hrest := (plain_cons.mp hpattern).2
    have hcall : matches_ key (s :: rest) = matchesLoop (rest.length + 1) key (s :: rest) := rfl
    by_cases hrec : s = [46, 46, 46]
    · subst hrec
      -- fuel for each of the parts
      choose enough henough using fun n => ih hrest (key.removefirstN n)
      let fuel := (Finset.range (key.length + 1)).sup enough
      have hparts : ∀ n m, n ≤ key.length → fuel ≤ m → matchesWithin m (key.removefirstN n) rest =
          some (matches_ (key.removefirstN n) rest) := by
        intro n m hn hm
        have hle : enough n ≤ fuel := Finset.le_sup (Finset.mem_range.mpr (Nat.lt_succ_of_le hn))
        exact henough n m (hle.trans hm)
      refine ⟨fuel + key.length + 2, fun n hn => ?_⟩
      cases n with
      | zero => cases hn
      | succ n =>
        have hloop := partsWithin_eq hparts (Nat.zero_add key.length)
          (m := n) (by omega)
        rw [matchesWithin, hcall, matchesLoop, first_cons hpattern,
          removefirst_cons hpattern]
        dsimp only
        rw [hloop, range_eq_range', apply_ite some, apply_ite some, apply_ite some,
          apply_ite some, apply_ite some]
        rfl
    · obtain ⟨fuel, hfuel⟩ := ih hrest key.removefirst
      refine ⟨fuel + 1, fun n hn => ?_⟩
      cases n with
      | zero => cases hn
      | succ n =>
        rw [matchesWithin, hcall, matchesLoop, first_cons hpattern,
          removefirst_cons hpattern]
        dsimp only
        rw [same_recursive_any, decide_eq_false hrec, hfuel n (Nat.le_of_succ_le_succ hn),
          if_neg Bool.false_ne_true, if_neg Bool.false_ne_true, apply_ite some, apply_ite some,
          apply_ite some]
        rfl

end Calls

/-- `matches` returns, and says whether the key can be read as the pattern is: a segment for each
`*` at its head, any number for each `...` there, and from the first segment that is not wild on the
same segments as in the pattern. -/
theorem matches_iff (key : ValidKey) (pattern : PlainKey) :
    ∃ b fuel, (∀ n, fuel ≤ n → matchesWithin n key.val pattern.val = some b) ∧
      (b = true ↔ Reads key.val pattern.val) := by
  obtain ⟨fuel, hfuel⟩ := matchesWithin_eq pattern.property key.val
  refine ⟨matches_ key.val pattern.val, fuel, hfuel, ?_⟩
  exact matchesLoop_iff pattern.property (le_refl _) key.property

/-- The key `foo/bar` does not match `foo/*`. -/
theorem matches_fails :
    let key := ofString (bytes "foo/bar")
    let pattern := ofString (bytes "foo/*")
    Wild.Matches pattern.wilds key.path ∧ ∀ n, matchesWithin (n + 1) key pattern = some false := by
  have hkey : ofString (bytes "foo/bar") = [bytes "foo", bytes "bar"] := by decide +kernel
  have hpattern : ofString (bytes "foo/*") = [bytes "foo", [42]] := by decide +kernel
  intro key pattern
  constructor
  · show Wild.Matches (wilds (ofString _)) (path (ofString _))
    rw [hkey, hpattern]
    exact ⟨_, rfl, _, _, rfl, rfl⟩
  · intro n
    show matchesWithin _ (ofString _) (ofString _) = _
    rw [hkey, hpattern, matchesWithin]
    rfl

theorem leading_eq {pattern : UniConfKey} (hpattern : pattern.Plain)
    (h : ∀ s ∈ pattern.dropWhile wildSegment, wildSegment s = false) :
    pattern.leading = pattern.wilds := by
  have hplain : UniConfKey.Plain (pattern.dropWhile wildSegment) :=
    fun hmem => hpattern ((dropWhile_sublist _).subset hmem)
  rw [leading, ← wilds_lits hplain h, ← wilds_append, takeWhile_append_dropWhile]

/-- Where all wildcards are at the head of a pattern and `...` is its last segment only, the
iterator finds the existing keys that match, each of them once. -/
theorem xiter_finds_matches (g : UniTempGen) (top : UniConfKey) (pattern : PlainKey)
    (hhead : ∀ s ∈ pattern.val.dropWhile wildSegment, wildSegment s = false)
    (hmany : Wild.many ∉ pattern.val.wilds.dropLast) :
    let found := (xiter g top pattern.val).map path
    found.Nodup ∧ ∀ key : PlainKey, top.path ++ key.val.path ∈ found ↔
      XIter.Below g top key.val.path ∧ matches_ key.val pattern.val = true := by
  have hexact := (exact_iff g top pattern.property).mpr
    fun _ _ h => Wild.ways_of_last hmany h
  refine ⟨hexact.once, fun key => (hexact.mem _).trans ?_⟩
  have hreads : matches_ key.val pattern.val = true ↔
      Wild.Matches pattern.val.wilds key.val.path := by
    refine (matchesLoop_iff pattern.property (le_refl _) key.property.valid).trans ?_
    rw [Reads, leading_eq pattern.property hhead, key.property.not_slash]
    exact and_iff_left nofun
  rw [hreads]
  constructor
  · rintro ⟨q, hq, hfound⟩
    rwa [append_cancel_left hq]
  · exact fun hfound => ⟨_, rfl, hfound⟩

theorem xiter_finds_matches_rest :
    let g := (UniTempGen.empty.set [[97], [98]] (some [49])).1
    let pattern : PlainKey := ⟨[[42], [46, 46, 46]], by decide⟩
    let found := (xiter g [] pattern.val).map path
    found.Nodup ∧ ∀ key : PlainKey, path [] ++ key.val.path ∈ found ↔
      XIter.Below g [] key.val.path ∧ matches_ key.val pattern.val = true :=
  xiter_finds_matches _ [] ⟨[[42], [46, 46, 46]], by decide⟩ (by decide) (by decide)

end UniConfKey

end WvStreams
