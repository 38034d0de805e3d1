import WvStreams.Containers.HashTable
import WvStreams.UniConf.KeyStore.Edit

/-!
# Printing, comparing and hashing a slice

The loops over the segments that a key shows of its store. `printable` is the joined segments
(`printable_eq`), `compareto` the lexicographic order of the folded segments (`compareto_eq`), so
it is a total preorder, and the hash value looks at what folding keeps (`ordered`).
-/

namespace WvStreams

open Lib List SegmentVector

/-- `strcasecmp`: the difference of the first two characters that differ in more than case. -/
def strcasecmp : Str → Str → Int
  | [], [] => 0
  | [], _ :: _ => -1
  | _ :: _, [] => 1
  | c :: s, d :: t =>
    if tolower c = tolower d then strcasecmp s t else (tolower c).toNat - (tolower d).toNat

/-- A key with the vector of its store, within which its part lies. -/
structure KeySlice where
  segments : SegmentVector
  left : Nat
  right : Nat
  ordered : left ≤ right
  inside : right ≤ segments.vec.length

namespace KeySlice

def get (k : KeySlice) (i : Nat) (h : i < k.right) : Segment :=
  k.segments.vec.get ⟨i, h.trans_le k.inside⟩

def value (k : KeySlice) : UniConfKey := k.segments.slice k.left k.right

def printLoop (k : KeySlice) : Nat → Nat → Str
  | 0, _ => []
  | n + 1, i =>
    if h : i < k.right then
      k.get i h ++ (if i < k.right - 1 then [UniConfKey.slash] else []) ++ printLoop k n (i + 1)
    else []

def printable (k : KeySlice) : Str :=
  if h0 : k.right - k.left = 0 then []
  else if k.right - k.left = 1 then k.get k.left (by omega)
  else k.printLoop (k.right - k.left) k.left

/-- What `compareto` returns when its loop ends at `i` and `j`. -/
def atEnd (k other : KeySlice) (i j : Nat) : Int :=
  if i = k.right then if j = other.right then 0 else -1 else 1

/-- The loop of `compareto`, which has `n` segments of the key before it. -/
def compareLoop (k other : KeySlice) : Nat → Nat → Nat → Int
  | 0, i, j => atEnd k other i j
  | n + 1, i, j =>
    if h : i < k.right ∧ j < other.right then
      let val := strcasecmp (k.get i h.1) (other.get j h.2)
      if val ≠ 0 then val else compareLoop k other n (i + 1) (j + 1)
    else atEnd k other i j

def compareto (k other : KeySlice) : Int :=
  compareLoop k other (k.right - k.left) k.left other.left

/-- `WvHash` of a key: the first and the last segment count, and how many there are. -/
def hash (k : KeySlice) : UInt32 :=
  if h0 : k.right - k.left = 0 then 0
  else if k.right - k.left = 1 then WvHash (k.get k.left (by omega))
  else
    WvHash (k.get k.left (by omega)) ^^^ WvHash (k.get (k.right - 1) (by omega)) ^^^
      UInt32.ofNat (k.right - k.left)

def from_ (k : KeySlice) (i : Nat) : UniConfKey := k.segments.slice i k.right

variable {i : Nat}

theorem from_of_lt (k : KeySlice) (h : i < k.right) : k.from_ i = k.get i h :: k.from_ (i + 1) := by
  have hlen : i < k.segments.vec.length := h.trans_le k.inside
  have hn : k.right - i = k.right - (i + 1) + 1 := by omega
  rw [from_, from_, slice, slice, drop_take, drop_take,
    drop_eq_getElem_cons hlen, hn, take_succ_cons]
  rfl

theorem from_of_ge (k : KeySlice) (h : k.right ≤ i) : k.from_ i = [] := by
  rw [from_, slice, drop_eq_nil_iff]
  exact (length_take_le _ _).trans h

@[simp] theorem length_from (k : KeySlice) (i : Nat) : (k.from_ i).length = k.right - i := by
  rw [from_, slice, length_drop, length_take_of_le k.inside]

@[simp] theorem length_value (k : KeySlice) : k.value.length = k.right - k.left :=
  k.length_from k.left

theorem printLoop_eq (k : KeySlice) {n : Nat} (h : i + n = k.right) :
    k.printLoop n i = UniConfKey.printable (k.from_ i) := by
  induction n generalizing i with
  | zero =>
    rw [k.from_of_ge (by omega)]
    rfl
  | succ n ih =>
    have hlt : i < k.right := by omega
    rw [printLoop, dif_pos hlt, ih (by omega), k.from_of_lt hlt]
    by_cases hlast : i < k.right - 1
    · rw [if_pos hlast, k.from_of_lt (show i + 1 < k.right by omega), UniConfKey.printable_cons]
      simp
    · rw [if_neg hlast, k.from_of_ge (show k.right ≤ i + 1 by omega)]
      simp [UniConfKey.printable]

theorem printable_eq (k : KeySlice) : k.printable = UniConfKey.printable k.value := by
  have hordered := k.ordered
  rw [printable]
  split
  · rename_i h0
    rw [value, ← from_, k.from_of_ge (by omega)]
    rfl
  · split
    · rename_i h1
      rw [value, ← from_, k.from_of_lt (show k.left < k.right by omega),
        k.from_of_ge (show k.right ≤ k.left + 1 by omega)]
      simp [UniConfKey.printable]
    · exact k.printLoop_eq (by omega)

/-- A result of a comparison as an `Ordering`. -/
def sign (val : Int) : Ordering := compare val 0

theorem sign_eq_lt {val : Int} : sign val = .lt ↔ val < 0 := by
  rw [sign, compare_lt_iff_lt]

theorem sign_eq_gt {val : Int} : sign val = .gt ↔ 0 < val := by
  rw [sign, compare_gt_iff_gt]

theorem sign_eq_eq {val : Int} : sign val = .eq ↔ val = 0 := by
  rw [sign, compare_eq_iff_eq]

theorem sign_sub (c d : Byte) : sign (c.toNat - d.toNat : Int) = compare c d := by
  rcases Nat.lt_trichotomy c.toNat d.toNat with h | h | h
  · have hlt : c < d := UInt8.lt_iff_toNat_lt.mpr h
    rw [sign_eq_lt.mpr (by omega), Std.compare_eq_lt.mpr hlt]
  · have heq : c = d := UInt8.toNat_inj.mp h
    rw [sign_eq_eq.mpr (by omega), heq, Std.compare_self]
  · have hlt : d < c := UInt8.lt_iff_toNat_lt.mpr h
    rw [sign_eq_gt.mpr (by omega), Std.compare_eq_gt.mpr hlt]

theorem sign_strcasecmp (s t : Segment) :
    sign (strcasecmp s t) = compare (fold s : Segment) (fold t) := by
  induction s generalizing t with
  | nil =>
    cases t with
    | nil => rfl
    | cons d t => exact List.compareLex_nil_cons.symm
  | cons c s ih =>
    cases t with
    | nil => exact List.compareLex_cons_nil.symm
    | cons d t =>
      have hcons : compare (fold (c :: s) : Segment) (fold (d :: t)) =
          (compare (tolower c) (tolower d)).then (compare (fold s : Segment) (fold t)) :=
        List.compareLex_cons_cons
      rw [strcasecmp, hcons]
      by_cases heq : tolower c = tolower d
      · rw [if_pos heq, ih, heq, Std.compare_self]
        rfl
      · rw [if_neg heq, sign_sub]
        cases hcmp : compare (tolower c) (tolower d) with
        | lt | gt => rfl
        | eq => exact absurd (Std.LawfulEqCmp.eq_of_compare hcmp) heq

theorem compareto_nil (l : UniConfKey) :
    UniConfKey.compareto [] l = if l = [] then .eq else .lt := by
  cases l with
  | nil => rfl
  | cons t l =>
    rw [if_neg (List.cons_ne_nil t l), UniConfKey.compareto, List.map_nil, List.map_cons,
      List.compare_eq_compareLex, List.compareLex_nil_cons]

theorem compareto_cons (s t : Segment) (k l : UniConfKey) :
    UniConfKey.compareto (s :: k) (t :: l) =
      (compare (fold s : Segment) (fold t)).then (UniConfKey.compareto k l) :=
  List.compareLex_cons_cons

theorem sign_atEnd (k other : KeySlice) {j : Nat} (hi : i ≤ k.right) (hj : j ≤ other.right)
    (hend : ¬ (i < k.right ∧ j < other.right)) :
    sign (atEnd k other i j) = UniConfKey.compareto (k.from_ i) (other.from_ j) := by
  rw [atEnd]
  by_cases hik : i = k.right
  · rw [if_pos hik, k.from_of_ge (by omega), compareto_nil]
    by_cases hjo : j = other.right
    · rw [if_pos hjo, other.from_of_ge (by omega), if_pos rfl]
      rfl
    · rw [if_neg hjo, other.from_of_lt (by omega), if_neg (List.cons_ne_nil _ _)]
      rfl
  · rw [if_neg hik, k.from_of_lt (by omega), other.from_of_ge (by omega), UniConfKey.compareto,
      List.map_nil, List.map_cons, List.compare_eq_compareLex, List.compareLex_cons_nil]
    rfl

theorem sign_compareLoop (k other : KeySlice) {n j : Nat} (hn : i + n = k.right)
    (hj : j ≤ other.right) :
    sign (compareLoop k other n i j) = UniConfKey.compareto (k.from_ i) (other.from_ j) := by
  induction n generalizing i j with
  | zero => exact sign_atEnd k other (by omega) hj (by omega)
  | succ n ih =>
    rw [compareLoop]
    by_cases h : i < k.right ∧ j < other.right
    · rw [dif_pos h, k.from_of_lt h.1, other.from_of_lt h.2, compareto_cons, ← sign_strcasecmp]
      by_cases hval : strcasecmp (k.get i h.1) (other.get j h.2) = 0
      · rw [hval, if_neg (by simp), ih (by omega) (by omega)]
        rfl
      · simp only [if_pos hval]
        cases hsign : sign (strcasecmp (k.get i h.1) (other.get j h.2)) with
        | lt | gt => rfl
        | eq => exact absurd (sign_eq_eq.mp hsign) hval
    · rw [dif_neg h]
      exact sign_atEnd k other (by omega) hj h

theorem compareto_eq (k other : KeySlice) :
    sign (k.compareto other) = UniConfKey.compareto k.value other.value := by
  have hordered := k.ordered
  exact sign_compareLoop k other (by omega) other.ordered

theorem tolower_and (c : Byte) : tolower c &&& 0x1F = c &&& 0x1F := by
  by_cases hc : 65 ≤ c ∧ c ≤ 90
  · rw [tolower, if_pos hc]
    apply UInt8.toNat_inj.mp
    rw [UInt8.toNat_and, UInt8.toNat_and, UInt8.toNat_add]
    change (c.toNat + 32) % 2 ^ 8 &&& 2 ^ 5 - 1 = c.toNat &&& 2 ^ 5 - 1
    rw [Nat.and_two_pow_sub_one_eq_mod, Nat.and_two_pow_sub_one_eq_mod]
    omega
  · rw [tolower, if_neg hc]

theorem hash_fold (s : Segment) : WvHash (fold s : Segment) = WvHash s := by
  have hstep : ∀ c : Byte, tolower c &&& 31 = c &&& 31 := tolower_and
  change WvHash (s.map tolower) = WvHash s
  rw [WvHash, WvHash, foldl_map]
  simp only [hstep]

theorem getElem?_value (k : KeySlice) {j : Nat} (hj : j < k.right) (hij : k.left + i = j) :
    k.value[i]? = some (k.get j hj) := by
  subst hij
  rw [value, slice, getElem?_drop, getElem?_take_of_lt hj]
  exact getElem?_eq_getElem (hj.trans_le k.inside)

theorem hash_get {a b : KeySlice} (h : a.value.map fold = b.value.map fold) {j : Nat}
    (hi : i < a.right) (hj : j < b.right) (hle : a.left ≤ i) (hij : i - a.left + b.left = j) :
    WvHash (a.get i hi) = WvHash (b.get j hj) := by
  have hget := congrArg (fun l => l[i - a.left]?) h
  simp only [getElem?_map] at hget
  rw [a.getElem?_value hi (by omega), b.getElem?_value hj (by omega)] at hget
  rw [← hash_fold, ← hash_fold (b.get j hj), Option.some.inj hget]

theorem hash_congr {a b : KeySlice} (h : a.value.map fold = b.value.map fold) :
    a.hash = b.hash := by
  have hlen := congrArg length h
  have ha := a.ordered
  have hb := b.ordered
  simp only [length_map, length_value] at hlen
  rw [hash, hash]
  by_cases h0 : a.right - a.left = 0
  · rw [dif_pos h0, dif_pos (hlen ▸ h0)]
  have h0' : ¬ b.right - b.left = 0 := hlen ▸ h0
  have hfirst : WvHash (a.get a.left (by omega)) = WvHash (b.get b.left (by omega)) :=
    hash_get h _ _ le_rfl (by omega)
  rw [dif_neg h0, dif_neg h0', hlen]
  by_cases h1 : b.right - b.left = 1
  · rw [if_pos h1, if_pos h1, hfirst]
  · have hlast : WvHash (a.get (a.right - 1) (by omega)) = WvHash (b.get (b.right - 1) (by omega)) :=
      hash_get h _ _ (by omega) (by omega)
    rw [if_neg h1, if_neg h1, hfirst, hlast]

/-- What containers rely on, for three keys. Segments are the same up to case when they are folded
to the same. -/
structure Ordered (a b c : KeySlice) : Prop where
  eq_iff : a.compareto b = 0 ↔ a.value.map fold = b.value.map fold
  total : a.compareto b ≤ 0 ∨ b.compareto a ≤ 0
  antisymm : a.compareto b ≤ 0 → b.compareto a ≤ 0 → a.compareto b = 0
  lt_iff : a.compareto b < 0 ↔ 0 < b.compareto a
  trans : a.compareto b ≤ 0 → b.compareto c ≤ 0 → a.compareto c ≤ 0
  before : a.value.map fold <+: b.value.map fold → a.value.length < b.value.length →
    a.compareto b < 0
  hash : a.compareto b = 0 → a.hash = b.hash

theorem compareto_eq_zero_iff (a b : KeySlice) :
    a.compareto b = 0 ↔ a.value.map fold = b.value.map fold := by
  rw [← sign_eq_eq, compareto_eq, UniConfKey.compareto]
  exact Std.LawfulEqCmp.compare_eq_iff_eq

theorem compareto_le_iff (a b : KeySlice) :
    a.compareto b ≤ 0 ↔ (compare (a.value.map fold) (b.value.map fold)).isLE = true := by
  have hsign : sign (a.compareto b) = compare (a.value.map fold) (b.value.map fold) :=
    compareto_eq a b
  rw [← hsign, Ordering.isLE_iff_ne_gt, sign_eq_gt]
  omega

theorem compareto_lt_iff (a b : KeySlice) : a.compareto b < 0 ↔ 0 < b.compareto a := by
  rw [← sign_eq_lt, ← sign_eq_gt, compareto_eq, compareto_eq, UniConfKey.compareto,
    UniConfKey.compareto, Std.OrientedCmp.gt_iff_lt]

theorem ordered_keys (a b c : KeySlice) : Ordered a b c where
  eq_iff := compareto_eq_zero_iff a b
  total := by
    have hlt := compareto_lt_iff a b
    omega
  antisymm := by
    have hlt := compareto_lt_iff a b
    omega
  lt_iff := compareto_lt_iff a b
  trans := by
    rw [compareto_le_iff, compareto_le_iff, compareto_le_iff]
    exact Std.TransCmp.isLE_trans
  before := by
    intro hprefix hlen
    have hne : a.value.map fold ≠ b.value.map fold := by
      intro heq
      have := congrArg length heq
      simp only [length_map] at this
      omega
    rw [← sign_eq_lt, compareto_eq]
    exact UniConfKey.compareto_lt hprefix hne
  hash h := hash_congr ((compareto_eq_zero_iff a b).mp h)

end KeySlice

end WvStreams
