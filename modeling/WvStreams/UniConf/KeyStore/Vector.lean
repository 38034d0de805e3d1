import WvStreams.UniConf.SubKey

/-!
# `UniConfKey::SegmentVector`

The vector under the keys that share a store. An access outside of it is no result. Growing a
vector keeps what is in use of it (`resize_grow`), but moving that up needs room for all of it
(`resize_shift`), also for what no key shows any more.
-/

namespace WvStreams

open List Option

/-- The vector, whose length is `_size`, and how much of it is in use. -/
structure SegmentVector where
  vec : List Segment
  used : Nat

namespace SegmentVector

def ofSize (size : Nat) : SegmentVector := ⟨List.replicate size [], 0⟩

def write (vec : List Segment) (index : Nat) (segment : Segment) : Option (List Segment) :=
  if index < vec.length then some (vec.set index segment) else none

def append (v : SegmentVector) (segment : Segment) : Option SegmentVector :=
  (write v.vec v.used segment).map fun vec => ⟨vec, v.used + 1⟩

def replace (v : SegmentVector) (index : Nat) (segment : Segment) : Option SegmentVector :=
  (write v.vec index segment).map fun vec =>
    ⟨vec, if v.used ≤ index then index + 1 else v.used⟩

/-- The loop of `resize` that moves the segments before `n` up by `shift`, from the last one on. -/
def shiftUp (shift : Nat) : Nat → List Segment → Option (List Segment)
  | 0, vec => some vec
  | n + 1, vec => do
    let segment ← vec[n]?
    let vec ← write vec (n + shift) segment
    shiftUp shift n vec

/-- The loop of `resize` that copies the first segments of the old vector into the new one. -/
def copyUp (shift : Nat) (old_vec : List Segment) : Nat → List Segment → Option (List Segment)
  | 0, vec => some vec
  | limit + 1, vec => do
    let vec ← copyUp shift old_vec limit vec
    let segment ← old_vec[limit]?
    write vec (limit + shift) segment

def resize (v : SegmentVector) (size shift : Nat) : Option SegmentVector :=
  if size ≤ v.vec.length then
    if 0 < shift then (shiftUp shift v.used v.vec).map fun vec => ⟨vec, v.used + shift⟩
    else some v
  else
    let limit := min (min (size - shift) v.vec.length) v.used
    (copyUp shift v.vec limit (List.replicate size [])).map fun vec => ⟨vec, v.used + shift⟩

def slice (v : SegmentVector) (left right : Nat) : UniConfKey := (v.vec.take right).drop left

def putAll (v : SegmentVector) (index : Nat) : List Segment → Option SegmentVector
  | [] => some v
  | segment :: segments => do
    let v ← v.replace index segment
    putAll v (index + 1) segments

section Loops

variable {vec old_vec : List Segment} {shift n : Nat}

theorem drop_set_self {segment : Segment} (h : n < vec.length) :
    (vec.set n segment).drop n = segment :: vec.drop (n + 1) := by
  rw [set_eq_take_append_cons_drop, if_pos h, drop_left' (length_take_of_le h.le)]

theorem set_drop_zero {segment : Segment} (h : n < vec.length) :
    (vec.drop n).set 0 segment = segment :: vec.drop (n + 1) := by
  rw [drop_eq_getElem_cons h, set_cons_zero]

theorem shiftUp_eq (h : n + shift ≤ vec.length) :
    shiftUp shift n vec = some (vec.take shift ++ vec.take n ++ vec.drop (n + shift)) := by
  induction n generalizing vec with
  | zero =>
    rw [shiftUp, take_zero, append_nil, Nat.zero_add, take_append_drop]
  | succ n ih =>
    have hn : n < vec.length := by omega
    have hwrite : write vec (n + shift) vec[n] = some (vec.set (n + shift) vec[n]) :=
      if_pos (by omega)
    rw [shiftUp, getElem?_eq_getElem hn]
    show ((write vec (n + shift) vec[n]).bind fun vec => shiftUp shift n vec) = _
    rw [hwrite, bind_some, ih (by rw [length_set]; omega), take_set_of_le (by omega),
      take_set_of_le (by omega), drop_set_self (by omega), append_assoc, append_assoc, append_cons,
      take_append_getElem hn, Nat.add_right_comm]

theorem shiftUp_none (hn : n ≠ 0) (h : vec.length < n + shift) : shiftUp shift n vec = none := by
  cases n with
  | zero => exact absurd rfl hn
  | succ n =>
    have hwrite : ∀ segment, write vec (n + shift) segment = none := fun _ => if_neg (by omega)
    rw [shiftUp]
    cases vec[n]? with
    | none => rfl
    | some segment =>
      show ((write vec (n + shift) segment).bind fun vec => shiftUp shift n vec) = none
      rw [hwrite]
      rfl

theorem copyUp_eq (h : n ≤ old_vec.length) (hvec : n + shift ≤ vec.length) :
    copyUp shift old_vec n vec =
      some (vec.take shift ++ old_vec.take n ++ vec.drop (n + shift)) := by
  induction n with
  | zero => rw [copyUp, take_zero, append_nil, Nat.zero_add, take_append_drop]
  | succ n ih =>
    have hn : n < old_vec.length := by omega
    rw [copyUp, ih (by omega) (by omega), getElem?_eq_getElem hn]
    show write _ (n + shift) old_vec[n] = _
    have hlength : (vec.take shift ++ old_vec.take n).length = n + shift := by
      rw [length_append, length_take, length_take, Nat.min_eq_left (by omega),
        Nat.min_eq_left (by omega), Nat.add_comm]
    rw [write, if_pos (by rw [length_append, hlength, length_drop]; omega),
      set_append_right _ _ (by omega), hlength, Nat.sub_self, set_drop_zero (by omega),
      take_succ_eq_append_getElem hn, Nat.add_right_comm n 1 shift]
    simp only [append_assoc, singleton_append]

end Loops

section Resize

variable {v v' : SegmentVector} {size shift left right : Nat}

theorem resize_fits (h : size ≤ v.vec.length) : v.resize size 0 = some v := by
  rw [resize, if_pos h, if_neg (Nat.lt_irrefl 0)]

theorem resize_shift (h : size ≤ v.vec.length) (hshift : 0 < shift)
    (hroom : v.used + shift ≤ v.vec.length) :
    v.resize size shift = some ⟨v.vec.take shift ++ v.vec.take v.used ++
      v.vec.drop (v.used + shift), v.used + shift⟩ := by
  rw [resize, if_pos h, if_pos hshift, shiftUp_eq hroom]
  rfl

theorem resize_overrun (h : size ≤ v.vec.length) (hshift : 0 < shift) (hused : v.used ≠ 0)
    (hroom : v.vec.length < v.used + shift) : v.resize size shift = none := by
  rw [resize, if_pos h, if_pos hshift, shiftUp_none hused hroom]
  rfl

def kept (v : SegmentVector) (size shift : Nat) : Nat := min (min (size - shift) v.vec.length) v.used

theorem resize_grow (h : v.vec.length < size) (hshift : shift ≤ size) :
    v.resize size shift = some ⟨replicate shift [] ++ v.vec.take (v.kept size shift) ++
      replicate (size - (v.kept size shift + shift)) [], v.used + shift⟩ := by
  have hkept : v.kept size shift ≤ v.vec.length := (min_le_left _ _).trans (min_le_right _ _)
  have hroom : v.kept size shift + shift ≤ (replicate size ([] : Segment)).length := by
    have hle : v.kept size shift ≤ size - shift := (min_le_left _ _).trans (min_le_left _ _)
    rw [length_replicate]
    omega
  have hcopy := copyUp_eq hkept hroom
  rw [resize, if_neg (Nat.not_le.mpr h)]
  show Option.map _ (copyUp shift v.vec (v.kept size shift) (replicate size [])) = _
  rw [hcopy, take_replicate, drop_replicate, Nat.min_eq_left hshift]
  rfl

end Resize

section Put

variable {v : SegmentVector} {index : Nat} {segment : Segment} {segments : List Segment}

theorem replace_eq (h : index < v.vec.length) : v.replace index segment =
    some ⟨v.vec.take index ++ segment :: v.vec.drop (index + 1), max v.used (index + 1)⟩ := by
  have hset : v.vec.set index segment = v.vec.take index ++ segment :: v.vec.drop (index + 1) := by
    rw [set_eq_take_append_cons_drop, if_pos h]
  have hused : (if v.used ≤ index then index + 1 else v.used) = max v.used (index + 1) := by
    split <;> omega
  rw [replace, write, if_pos h, hset, map_some, hused]

theorem replace_none (h : v.vec.length ≤ index) : v.replace index segment = none := by
  rw [replace, write, if_neg (Nat.not_lt.mpr h)]
  rfl

theorem putAll_cons : v.putAll index (segment :: segments) =
    (v.replace index segment).bind fun v => v.putAll (index + 1) segments := rfl

theorem putAll_eq (hne : segments ≠ []) (h : index + segments.length ≤ v.vec.length) :
    v.putAll index segments =
      some ⟨v.vec.take index ++ segments ++ v.vec.drop (index + segments.length),
        max v.used (index + segments.length)⟩ := by
  induction segments generalizing v index with
  | nil => exact absurd rfl hne
  | cons segment segments ih =>
    rw [length_cons] at h
    rw [putAll_cons, replace_eq (by omega), bind_some]
    by_cases hlast : segments = []
    · rw [hlast]
      simp [putAll]
    · have hindex : (v.vec.take index).length = index := length_take_of_le (by omega)
      have hroom : index + 1 + segments.length ≤
          (v.vec.take index ++ segment :: v.vec.drop (index + 1)).length := by
        rw [length_append, hindex, length_cons, length_drop]
        omega
      have hput : (v.vec.take index ++ [segment]).length = index + 1 := by
        rw [length_append, hindex, length_singleton]
      have hdrop : (v.vec.take index ++ [segment] ++ v.vec.drop (index + 1)).drop
          (index + 1 + segments.length) = v.vec.drop (index + (segments.length + 1)) := by
        rw [drop_append, drop_eq_nil_of_le (by omega), nil_append, hput, drop_drop]
        congr 1
        omega
      rw [ih hlast hroom]
      dsimp only
      rw [append_cons, take_left' hput, hdrop, length_cons, append_assoc _ [_]]
      congr 2
      omega

theorem putAll_append (v : SegmentVector) (index : Nat) (xs ys : List Segment) :
    v.putAll index (xs ++ ys) =
      (v.putAll index xs).bind fun v => v.putAll (index + xs.length) ys := by
  induction xs generalizing v index with
  | nil => rfl
  | cons x xs ih =>
    rw [cons_append, putAll_cons, putAll_cons, length_cons]
    cases v.replace index x with
    | none => rfl
    | some v =>
      rw [bind_some, bind_some, ih, Nat.add_right_comm, Nat.add_assoc]

theorem putAll_none (hne : segments ≠ []) (h : v.vec.length < index + segments.length) :
    v.putAll index segments = none := by
  induction segments generalizing v index with
  | nil => exact absurd rfl hne
  | cons segment segments ih =>
    rw [length_cons] at h
    rw [putAll_cons]
    by_cases hlt : index < v.vec.length
    · rw [replace_eq hlt, bind_some]
      apply ih
      · rintro rfl
        rw [length_nil] at h
        omega
      · simp only [length_append, length_cons, length_drop, length_take]
        omega
    · rw [replace_none (Nat.le_of_not_lt hlt)]
      rfl

theorem length_of_putAll {v' : SegmentVector} (h : v.putAll index segments = some v') :
    v'.vec.length = v.vec.length := by
  by_cases hne : segments = []
  · rw [hne] at h
    rw [← some.inj h]
  · by_cases hroom : index + segments.length ≤ v.vec.length
    · rw [putAll_eq hne hroom] at h
      obtain rfl := some.inj h
      simp only [length_append, length_take, length_drop]
      omega
    · rw [putAll_none hne (Nat.lt_of_not_le hroom)] at h
      cases h

end Put

section Slice

variable {v : SegmentVector} {vec front rest segments : List Segment} {left right m used : Nat}

theorem length_slice (left : Nat) (hright : right ≤ v.vec.length) :
    (v.slice left right).length = right - left := by
  rw [slice, length_drop, length_take, Nat.min_eq_left hright]

theorem slice_empty (v : SegmentVector) (right : Nat) : v.slice right right = [] := by
  rw [slice, drop_eq_nil_of_le]
  rw [length_take]
  exact Nat.min_le_left _ _

theorem slice_moved (front rest : List Segment) (left used : Nat) (hm : m ≤ vec.length)
    (hright : right ≤ m) :
    slice ⟨front ++ vec.take m ++ rest, used⟩ (left + front.length) (right + front.length) =
      slice ⟨vec, used⟩ left right := by
  have htake : (front ++ vec.take m ++ rest).take (front.length + right) =
      front ++ vec.take right := by
    rw [append_assoc, take_length_add_append, take_append_of_le_length
      (by rw [length_take_of_le hm]; exact hright), take_take, Nat.min_eq_left hright]
  rw [slice, slice, Nat.add_comm left, Nat.add_comm right]
  rw [htake, drop_length_add_append]

theorem slice_put_end (hright : right ≤ vec.length) (hleft : left ≤ right) :
    slice ⟨vec.take right ++ segments ++ rest, used⟩ left (right + segments.length) =
      slice ⟨vec, used⟩ left right ++ segments := by
  have hlen : (vec.take right).length = right := length_take_of_le hright
  have htake : (vec.take right ++ segments ++ rest).take (right + segments.length) =
      vec.take right ++ segments := by
    apply take_left'
    rw [length_append, hlen]
  rw [slice, slice]
  rw [htake, drop_append_of_le_length (by rw [hlen]; exact hleft)]

theorem slice_put_front (hroom : left + segments.length ≤ vec.length) (hleft : left ≤ right) :
    slice ⟨vec.take left ++ segments ++ vec.drop (left + segments.length), used⟩ left
      (right + segments.length) =
      segments ++ slice ⟨vec, used⟩ (left + segments.length) (right + segments.length) := by
  have hlen : (vec.take left).length = left := length_take_of_le (by omega)
  have hboth : (vec.take left ++ segments).length = left + segments.length := by
    rw [length_append, hlen]
  rw [slice, slice]
  rw [take_append, hboth, take_of_length_le (by omega), append_assoc,
    drop_left' hlen, drop_take, Nat.add_sub_add_right]

end Slice

end SegmentVector

end WvStreams
