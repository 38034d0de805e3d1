import WvStreams.UniConf.Key

/-!
# Ranges of segments

The parts of a key that are taken by their number of segments. A key is `suborsame` of every
key that starts with its segments, a trailing slash aside (`suborsame_iff`).
-/

namespace WvStreams

open Lib List

namespace UniConfKey

def range (key : UniConfKey) (i j : Nat) : UniConfKey := collapse ((key.take j).drop i)

def firstN (key : UniConfKey) (n : Nat) : UniConfKey := key.range 0 n

def lastN (key : UniConfKey) (n : Nat) : UniConfKey := key.range (key.length - n) key.length

def removefirstN (key : UniConfKey) (n : Nat) : UniConfKey := key.range n key.length

def removelastN (key : UniConfKey) (n : Nat) : UniConfKey := key.range 0 (key.length - n)

def segment (key : UniConfKey) (n : Nat) : UniConfKey := key.range n (n + 1)

/-- The number of segments that `suborsame` compares. -/
def dirsegments (key : UniConfKey) : Nat :=
  if key.hastrailingslash then key.length - 1 else key.length

def suborsame (base key : UniConfKey) : Bool :=
  same (key.firstN base.dirsegments) (base.firstN base.dirsegments)

/-- `compareto` orders keys by their segments, and those by `strcasecmp`. -/
def compareto (a b : UniConfKey) : Ordering := compare (a.map fold) (b.map fold)

variable {key a b : UniConfKey}

theorem Plain.range (h : key.Plain) (i j : Nat) : key.range i j = (key.take j).drop i := by
  have hplain : UniConfKey.Plain ((key.take j).drop i) :=
    fun hmem => h (mem_of_mem_take (mem_of_mem_drop hmem))
  exact hplain.collapse_eq

theorem Plain.firstN (h : key.Plain) (n : Nat) : key.firstN n = key.take n :=
  h.range 0 n

theorem Plain.removefirstN (h : key.Plain) (n : Nat) : key.removefirstN n = key.drop n := by
  rw [UniConfKey.removefirstN, h.range, take_length]

theorem Valid.range (h : key.Valid) (i j : Nat) : (key.range i j).Valid := by
  have hinner : ([] : Segment) ∉ ((key.take j).drop i).dropLast := by
    intro hmem
    apply h.inner
    rw [mem_iff_getElem?] at hmem ⊢
    obtain ⟨n, hn⟩ := hmem
    refine ⟨i + n, ?_⟩
    rw [getElem?_dropLast] at hn ⊢
    rw [length_drop, length_take, getElem?_drop, getElem?_take] at hn
    split at hn
    · split at hn
      · rw [if_pos (by omega)]
        exact hn
      · cases hn
    · cases hn
  unfold UniConfKey.range collapse
  split
  · exact ⟨not_mem_nil, nofun⟩
  · rename_i hne
    exact ⟨hinner, hne⟩

theorem Valid.firstN (h : key.Valid) (n : Nat) : key.firstN n = key.take n := by
  show collapse (key.take n) = key.take n
  rw [collapse, if_neg]
  intro e
  cases key with
  | nil => cases n <;> cases e
  | cons s key =>
    cases n with
    | zero => cases e
    | succ n =>
      rw [take_succ_cons] at e
      exact h.head_ne (cons.inj e).1

theorem Valid.path_eq (h : key.Valid) : key.path = (key.take key.dirsegments).map fold := by
  rcases h.cases with hplain | ⟨k, -, hk, rfl⟩
  · rw [hplain.path_eq, dirsegments, hplain.not_slash, if_neg Bool.false_ne_true, take_length]
  · rw [path_slash, hk.path_eq, dirsegments, slash_hastrailingslash, if_pos rfl]
    simp

theorem suborsame_iff {base : UniConfKey} (hbase : base.Valid) (hkey : key.Valid) :
    base.suborsame key = true ↔ base.path <+: key.map fold := by
  have hle : base.dirsegments ≤ base.length := by
    unfold dirsegments
    split <;> omega
  have hlen : base.path.length = base.dirsegments := by
    rw [hbase.path_eq, length_map, length_take, Nat.min_eq_left hle]
  rw [suborsame, same, beq_iff_eq, hkey.firstN, hbase.firstN, ← hbase.path_eq, map_take,
    prefix_iff_eq_take, hlen]
  exact eq_comm

theorem compareto_lt (h : a.map fold <+: b.map fold) (hne : a.map fold ≠ b.map fold) :
    compareto a b = .lt := by
  unfold compareto
  generalize a.map fold = k at h hne
  generalize b.map fold = l at h hne
  induction k generalizing l with
  | nil =>
    cases l with
    | nil => exact absurd rfl hne
    | cons t l => exact List.compareLex_nil_cons
  | cons s k ih =>
    cases l with
    | nil => exact absurd h (by simp)
    | cons t l =>
      obtain ⟨rfl, hrest⟩ := List.cons_prefix_cons.mp h
      have hself : compare s s = .eq := Std.ReflCmp.compare_self
      rw [List.compare_eq_compareLex, List.compareLex_cons_cons, hself]
      exact ih l hrest fun e => hne (by rw [e])

theorem map_fold_collapse (key : UniConfKey) : (collapse key).map fold = collapse (key.map fold) := by
  have hiff : key = [[]] ↔ key.map fold = [[]] := by
    cases key with
    | nil | cons s key => simp
  unfold collapse
  by_cases h : key = [[]]
  · rw [if_pos h, if_pos (hiff.mp h)]
    rfl
  · rw [if_neg h, if_neg fun e => h (hiff.mpr e)]

theorem map_fold_range (h : a.map fold = b.map fold) (i j : Nat) :
    (a.range i j).map fold = (b.range i j).map fold := by
  rw [range, range, map_fold_collapse, map_fold_collapse, map_drop, map_drop, map_take, map_take, h]

theorem length_congr (h : a.map fold = b.map fold) : a.length = b.length := by
  simpa using congrArg length h

theorem hastrailingslash_congr (h : a.map fold = b.map fold) :
    a.hastrailingslash = b.hastrailingslash := by
  have hfold : ∀ key : UniConfKey, key.hastrailingslash = ((key.map fold).getLast? == some []) := by
    intro key
    rw [hastrailingslash, getLast?_map]
    cases key.getLast? with
    | none => rfl
    | some s => cases s <;> rfl
  rw [hfold, hfold, h]

theorem path_congr (h : a.map fold = b.map fold) : a.path = b.path := by
  have hfold : ∀ key : UniConfKey, key.path = (key.map fold).filter (· ≠ []) := by
    intro key
    rw [path, filter_map]
    congr 1
    apply filter_congr
    intro s _
    simp
  rw [hfold, hfold, h]

theorem suborsame_congr (h : a.map fold = b.map fold) (key : UniConfKey) :
    a.suborsame key = b.suborsame key ∧ key.suborsame a = key.suborsame b := by
  have hdir : a.dirsegments = b.dirsegments := by
    rw [dirsegments, dirsegments, hastrailingslash_congr h, length_congr h]
  unfold suborsame same firstN
  rw [hdir, map_fold_range h, map_fold_range h]
  exact ⟨rfl, rfl⟩

end UniConfKey

end WvStreams
