import WvStreams.UniConf.KeyStore.Heap

/-!
# `UniConfKey::append` and `UniConfKey::prepend`

Both work in the store of the key if no other key has it, and in a copy if one has (`Owned`).
The loops over the other key put its names one after the other (`Ready.copyFrom`).
-/

namespace WvStreams

open Function

open List Option

open SegmentVector

open UniConfKey

namespace KeyHeap

def resize (h : KeyHeap) (k size shift : Nat) : Option KeyHeap := do
  let o ← h.key k
  let v ← h.stores o.store
  let v ← v.resize size shift
  some (h.setSegments o.store v)

/-- `store->segments.replace(index, segment)` of a key, and `++right`. -/
def put (h : KeyHeap) (k index : Nat) (segment : Segment) : Option KeyHeap := do
  let o ← h.key k
  let v ← h.stores o.store
  let v ← v.replace index segment
  some ((h.setSegments o.store v).setKey k (some ⟨o.store, o.left, o.right + 1⟩))

def read (h : KeyHeap) (k j : Nat) : Option Segment := do
  let o ← h.key k
  let v ← h.stores o.store
  v.vec[j]?

/-- The loops of `append` and `prepend` over the segments of `_key` from `j` on, in a number of
turns: `index` is where a segment goes. -/
def copyFrom (index : KeyFields → KeyFields → Nat → Nat) (k l : Nat) :
    Nat → Nat → KeyHeap → Option KeyHeap
  | 0, _, _ => none
  | fuel + 1, j, h => do
    let _key ← h.key l
    if _key.right ≤ j then some h
    else
      let segment ← h.read l j
      if segment = [] then copyFrom index k l fuel (j + 1) h
      else
        let o ← h.key k
        let h ← h.put k (index o _key j) segment
        copyFrom index k l fuel (j + 1) h

def ends (h : KeyHeap) (k : Nat) : Option Bool := do
  let o ← h.key k
  if o.right = o.left then some true
  else (h.read k (o.right - 1)).map fun s => decide (s = [])

def putSlash (h : KeyHeap) (k : Nat) (hastrailingslash : Bool) : Option KeyHeap := do
  let o ← h.key k
  if hastrailingslash then h.put k o.right [] else some h

def append (fuel : Nat) (h : KeyHeap) (k l : Nat) : Option KeyHeap := do
  let hastrailingslash ← h.ends l
  let h ← h.unique k
  let o ← h.key k
  let _key ← h.key l
  let h ← h.resize k (o.right - o.left + _key.right - _key.left + 1) 0
  let h ← copyFrom (fun o _ _ => o.right) k l fuel _key.left h
  let h ← h.putSlash k hastrailingslash
  h.collapse k

def prepend (fuel : Nat) (h : KeyHeap) (k l : Nat) : Option KeyHeap := do
  let h ← h.unique k
  let _key ← h.key l
  let source ← h.stores _key.store
  let segments ← readRange source _key.left (_key.right - _key.left)
  let shift := (segments.filter (· ≠ [])).length
  let o ← h.key k
  let h ← h.resize k (shift + o.right - o.left) shift
  let h ← copyFrom (fun o _key j => o.left + j - _key.left) k l fuel _key.left h
  h.collapse k

structure Owned (h : KeyHeap) (k : Nat) (o : KeyFields) (v : SegmentVector) : Prop
    extends Sees h k o v where
  counted : h.Counted
  alone : h.ref_count o.store = 1

/-- The key has become another one, and no other key is touched. -/
structure Made (h h' : KeyHeap) (k : Nat) (key : UniConfKey) : Prop where
  value : h'.value k = some key
  others : ∀ i, i ≠ k → Untouched h h' i
  consistent : (∀ i, i ≠ k → h.Shown i) → key.Valid → h'.Consistent

section Owned

variable {h h₁ h' : KeyHeap} {k l : Nat} {o p : KeyFields} {v w source : SegmentVector}

theorem patch_patch (w w' : SegmentVector) (r r' : Nat) :
    (h.patch k o w r).patch k ⟨o.store, o.left, r⟩ w' r' = h.patch k o w' r' := by
  simp only [patch, setSegments, setKey, update_idem, set_set]

theorem Sees.patch (hk : Sees h k o v) (w : SegmentVector) (r : Nat) :
    Sees (h.patch k o w r) k ⟨o.store, o.left, r⟩ w where
  key := (key_setKey (h := h.setSegments o.store w) hk.key _).1
  store := update_self _ _ _

theorem Sees.patch_self (hk : Sees h k o v) (w : SegmentVector) :
    h.setSegments o.store w = h.patch k o w o.right := by
  have hset : h.keys.set k (some o) = h.keys := by
    obtain ⟨hlt, hget⟩ := List.getElem?_eq_some_iff.mp (key_eq_some.mp hk.key)
    rw [← hget, List.set_getElem_self]
  show _ = KeyHeap.setKey _ _ _
  simp only [setSegments, setKey]
  rw [hset]

theorem Sees.patch_id (hk : Sees h k o v) : h.patch k o v o.right = h := by
  rw [← hk.patch_self]
  show { h with stores := update h.stores o.store (some v) } = h
  rw [← hk.store, update_eq_self]

theorem Owned.patch (hr : Owned h k o v) (w : SegmentVector) (r : Nat) :
    Owned (h.patch k o w r) k ⟨o.store, o.left, r⟩ w where
  toSees := hr.toSees.patch w r
  counted := hr.counted.patch hr.key r
  alone := hr.alone

theorem Sees.resize (hk : Sees h k o v) (size shift : Nat) :
    h.resize k size shift = (v.resize size shift).map fun w => h.patch k o w o.right := by
  rw [KeyHeap.resize, hk.key]
  show (h.stores o.store).bind _ = _
  rw [hk.store]
  show (v.resize size shift).bind _ = _
  cases v.resize size shift with
  | none => rfl
  | some w => exact congrArg some (hk.patch_self w)

theorem Sees.put (hk : Sees h k o v) (index : Nat) (segment : Segment) :
    h.put k index segment =
      (v.replace index segment).map fun w => h.patch k o w (o.right + 1) := by
  rw [KeyHeap.put, hk.key]
  show (h.stores o.store).bind _ = _
  rw [hk.store]
  show (v.replace index segment).bind _ = _
  cases v.replace index segment with
  | none => rfl
  | some w => rfl

theorem Sees.read (hl : Sees h l p source) (j : Nat) : h.read l j = source.vec[j]? := by
  rw [KeyHeap.read, hl.key]
  show (h.stores p.store).bind _ = _
  rw [hl.store]
  rfl

theorem Sees.putSlash (hk : Sees h k o v) (slash : Bool) :
    h.putSlash k slash = (v.putAll o.right (if slash then [[]] else [])).map fun w =>
      h.patch k o w (o.right + (if slash then [([] : Segment)] else []).length) := by
  rw [KeyHeap.putSlash, hk.key]
  cases slash with
  | false =>
    show some h = some (h.patch k o v o.right)
    rw [hk.patch_id]
  | true =>
    show h.put k o.right [] = _
    have hput : v.putAll o.right [[]] = v.replace o.right [] := by
      rw [putAll_cons]
      cases v.replace o.right [] with
      | none | some w => rfl
    rw [hk.put, if_pos rfl, hput]
    rfl

theorem ends_eq (hl : Sees h l p source) (hp : Shows source p) :
    h.ends l = some (isempty (source.slice p.left p.right) ||
      hastrailingslash (source.slice p.left p.right)) := by
  have hlen := length_slice p.left hp.inside
  rw [ends, hl.key]
  show (if p.right = p.left then some true else _) = _
  by_cases hempty : p.right = p.left
  · rw [if_pos hempty, hempty, source.slice_empty]
    rfl
  · have hordered := hp.ordered
    have hinside := hp.inside
    have hlt : p.right - 1 < source.vec.length := by omega
    have hlast : (source.slice p.left p.right).getLast? = source.vec[p.right - 1]? := by
      rw [slice, getLast?_drop, length_take, if_neg (by omega),
        getLast?_take, if_neg (by omega), getElem?_eq_getElem hlt, Option.some_or]
    have hne : isempty (source.slice p.left p.right) = false := by
      rw [isempty, isEmpty_eq_false_iff, ← length_pos_iff, hlen]
      omega
    rw [if_neg hempty, hne, Bool.false_or, hastrailingslash, hlast]
    show Option.map _ (h.read l (p.right - 1)) = _
    rw [hl.read, getElem?_eq_getElem hlt, Option.map_some]
    congr 1
    exact (beq_eq_decide _ _).symm.trans (by simp)

theorem Consistent.own (hh : h.Consistent) (hk : Sees h k o v) :
    ∃ h₁ o₁ v₁, h.unique k = some h₁ ∧ Owned h₁ k o₁ v₁ ∧ Shows v₁ o₁ ∧
      v₁.slice o₁.left o₁.right = v.slice o.left o.right ∧ (∀ i, i ≠ k → Untouched h h₁ i) ∧
      (h.ref_count o.store = 1 ∧ o₁ = o ∧ v₁ = v ∨ h.ref_count o.store ≠ 1 ∧ o₁.left = 0 ∧
        v₁.vec.length = o₁.right ∧ v₁.used = o₁.right) := by
  have hshows := hh.shows hk
  by_cases hone : h.ref_count o.store = 1
  · refine ⟨h, o, v, ?_, ⟨hk, hh.counted, hone⟩, hshows, rfl, fun i _ => .refl h i,
      .inl ⟨hone, rfl, rfl⟩⟩
    rw [KeyHeap.unique, hk.key]
    exact if_pos hone
  · have hlen := length_slice o.left hshows.inside
    have hunique := unique_eq hk hshows.ordered hshows.inside hone
    have hself : slice ⟨v.slice o.left o.right, o.right - o.left⟩ 0
        (o.right - o.left) = v.slice o.left o.right := by
      rw [slice, drop_zero, ← hlen, take_length]
    have hkeys := key_setKey
      (h := (h.release o.store).allocate ⟨v.slice o.left o.right, o.right - o.left⟩) hk.key
      (some ⟨h.fresh, 0, o.right - o.left⟩)
    refine ⟨_, ⟨h.fresh, 0, o.right - o.left⟩, ⟨v.slice o.left o.right, o.right - o.left⟩, hunique,
      ⟨⟨hkeys.1, ?_⟩, hh.counted.moved hk.key hone, ?_⟩, ?_, hself,
      fun i hi => hh.counted.untouched_moved hk.key hone hi, .inr ⟨hone, rfl, hlen, rfl⟩⟩
    · rw [moved_stores hone, if_pos rfl]
    · exact update_self _ _ _
    · refine ⟨Nat.zero_le _, le_refl _, hlen.ge, ?_, fun h => h.symm⟩
      rw [hself]
      exact hshows.valid

theorem Owned.finish (hr : Owned h k o v) {w : SegmentVector} {r : Nat} (hleft : o.left ≤ r)
    (hroom : r ≤ w.vec.length) (hused : r ≤ w.used) :
    ∃ h', (h.patch k o w r).collapse k = some h' ∧
      Made h h' k (UniConfKey.collapse (w.slice o.left r)) := by
  have hready := hr.patch w r
  obtain ⟨h', hcollapse, hcounted, hvalue, hothers, hself⟩ :=
    hready.counted.collapse hready.toSees hleft (.inr hroom)
  have huntouched : ∀ i, i ≠ k → Untouched h h' i := fun i hi =>
    (hr.counted.untouched_patch hr.key hr.alone r hi).trans (hothers i hi)
  refine ⟨h', hcollapse, hvalue, huntouched, fun hshown hvalid => ⟨hcounted, fun i => ?_⟩⟩
  by_cases hi : i = k
  · rw [hi]
    exact hself (.inl hused) hvalid
  · exact (huntouched i hi).shown (hshown i hi)

theorem Made.of_untouched {key : UniConfKey} (hmade : Made h₁ h' k key)
    (hothers : ∀ i, i ≠ k → Untouched h h₁ i) : Made h h' k key where
  value := hmade.value
  others i hi := (hothers i hi).trans (hmade.others i hi)
  consistent hshown := hmade.consistent fun i hi => (hothers i hi).shown (hshown i hi)

theorem Sees.of_collapse (hk : Sees h k o v) (hcollapse : h.collapse k = some h')
    {shown : UniConfKey} (hshown : h'.value k = some shown) :
    shown = [] ∨ o.right ≤ v.vec.length ∧ shown = v.slice o.left o.right := by
  rw [collapse, hk.key] at hcollapse
  have hbind : (h.stores o.store).bind _ = some h' := hcollapse
  rw [hk.store] at hbind
  have htest : (lone v o).bind _ = some h' := hbind
  obtain ⟨flag, -, hif⟩ := bind_eq_some_iff.mp htest
  obtain ⟨o', v', hk', hright, rfl⟩ := of_value hshown
  by_cases hempty : flag = true ∨ o.right = o.left
  · rw [if_pos hempty] at hif
    obtain rfl := some.inj hif
    have hkey := (key_setKey (h := h.release o.store) hk.key (some ⟨EMPTY_store, 0, 0⟩)).1
    obtain rfl := some.inj (hkey.symm.trans hk'.key)
    exact .inl (v'.slice_empty 0)
  · rw [if_neg hempty] at hif
    obtain rfl := some.inj hif
    obtain ⟨rfl, rfl⟩ := hk.unique hk'
    exact .inr ⟨hright, rfl⟩

end Owned

section Turns

variable {h : KeyHeap} {k l : Nat} {o p : KeyFields} {v w source : SegmentVector}
  {index : KeyFields → KeyFields → Nat → Nat} {fuel j : Nat}

theorem slice_cons {right : Nat} {s : Segment} {rest : UniConfKey}
    (h : source.slice j right = s :: rest) :
    j < right ∧ source.vec[j]? = some s ∧ source.slice (j + 1) right = rest := by
  have hget : (source.vec.take right)[j]? = some s := by
    rw [← head?_drop, ← slice, h]
    rfl
  have hlt : j < right := by
    by_contra hle
    rw [getElem?_take_eq_none (Nat.le_of_not_lt hle)] at hget
    cases hget
  refine ⟨hlt, ?_, ?_⟩
  · rwa [getElem?_take_of_lt hlt] at hget
  · rw [slice, ← drop_drop, ← slice, h, drop_one]
    rfl

theorem Sees.copyFrom_done (hl : Sees h l p source) (hj : p.right ≤ j) :
    copyFrom index k l (fuel + 1) j h = some h := by
  rw [copyFrom, hl.key]
  exact if_pos hj

theorem Sees.copyFrom_read (hl : Sees h l p source) (hj : j < p.right) :
    copyFrom index k l (fuel + 1) j h = source.vec[j]?.bind fun segment =>
      if segment = [] then copyFrom index k l fuel (j + 1) h
      else (h.key k).bind fun o => (h.put k (index o p j) segment).bind
        (copyFrom index k l fuel (j + 1)) := by
  rw [copyFrom, hl.key]
  show (if p.right ≤ j then some h else (h.read l j).bind _) = _
  rw [if_neg (Nat.not_le.mpr hj), hl.read]
  rfl

theorem Sees.copyFrom_skip (hl : Sees h l p source) (hj : j < p.right)
    (hs : source.vec[j]? = some []) :
    copyFrom index k l (fuel + 1) j h = copyFrom index k l fuel (j + 1) h := by
  rw [hl.copyFrom_read hj, hs]
  rfl

theorem Sees.copyFrom_put (hl : Sees h l p source) (hk : Sees h k o v) (hj : j < p.right)
    {s : Segment} (hs : source.vec[j]? = some s) (hne : s ≠ []) :
    copyFrom index k l (fuel + 1) j h =
      ((v.replace (index o p j) s).map fun w => h.patch k o w (o.right + 1)).bind
        (copyFrom index k l fuel (j + 1)) := by
  rw [hl.copyFrom_read hj, hs, bind_some, if_neg hne, hk.key, bind_some, hk.put]

end Turns

/-- The key `k` has its store for itself, and `l` is another key. -/
structure Ready (h : KeyHeap) (k l : Nat) (o : KeyFields) (v : SegmentVector) (p : KeyFields)
    (source : SegmentVector) : Prop extends Owned h k o v where
  other : Sees h l p source
  ne : l ≠ k

section Ready

variable {h : KeyHeap} {k l : Nat} {o p : KeyFields} {v w source : SegmentVector}

theorem Ready.patch (hr : Ready h k l o v p source) (w : SegmentVector) (r : Nat) :
    Ready (h.patch k o w r) k l ⟨o.store, o.left, r⟩ w p source where
  toOwned := hr.toOwned.patch w r
  other := (hr.counted.untouched_patch hr.key hr.alone r hr.ne).sees hr.other
  ne := hr.ne

theorem Ready.copyFrom (hr : Ready h k l o v p source)
    {index : KeyFields → KeyFields → Nat → Nat} {front slash : UniConfKey}
    (hslash : slash = [] ∨ slash = [[]]) {j b r fuel : Nat}
    (hslice : source.slice j p.right = front ++ slash) (hright : p.right ≤ source.vec.length)
    (hfront : front.Plain)
    (hindex : ∀ n < front.length, index ⟨o.store, o.left, r + n⟩ p (j + n) = b + n)
    (hfuel : (front ++ slash).length < fuel) :
    KeyHeap.copyFrom index k l fuel j (h.patch k o w r) =
      (w.putAll b front).map fun w => h.patch k o w (r + front.length) := by
  have hnow := hr.patch w r
  induction front generalizing j b r w fuel with
  | nil =>
    have hlen := length_slice j hright
    obtain ⟨fuel, rfl⟩ : ∃ n, fuel = n + 1 := ⟨fuel - 1, by omega⟩
    rw [nil_append] at hslice hfuel
    show _ = some (h.patch k o w r)
    rw [hslice] at hlen
    rcases hslash with rfl | rfl
    · have hj : p.right ≤ j := by
        rw [length_nil] at hlen
        omega
      exact hnow.other.copyFrom_done hj
    · obtain ⟨hj, hs, -⟩ := slice_cons hslice
      rw [length_singleton] at hlen hfuel
      obtain ⟨fuel, rfl⟩ : ∃ n, fuel = n + 1 := ⟨fuel - 1, by omega⟩
      rw [hnow.other.copyFrom_skip hj hs]
      exact hnow.other.copyFrom_done (by omega)
  | cons s front ih =>
    obtain ⟨hs, hfront⟩ := plain_cons.mp hfront
    obtain ⟨hj, hget, hrest⟩ := slice_cons hslice
    rw [cons_append, length_cons] at hfuel
    obtain ⟨fuel, rfl⟩ : ∃ n, fuel = n + 1 := ⟨fuel - 1, by omega⟩
    have hfirst := hindex 0 (Nat.succ_pos _)
    rw [hnow.other.copyFrom_put hnow.toSees hj hget hs, putAll_cons]
    simp only [Nat.add_zero] at hfirst
    rw [hfirst]
    cases hput : w.replace b s with
    | none => rfl
    | some w' =>
      have hlater : ∀ n < front.length,
          index ⟨o.store, o.left, r + 1 + n⟩ p (j + 1 + n) = b + 1 + n := by
        intro n hn
        have hnext := hindex (n + 1) (Nat.succ_lt_succ hn)
        rwa [Nat.add_right_comm r 1 n, Nat.add_right_comm j 1 n, Nat.add_right_comm b 1 n,
          Nat.add_assoc r n 1, Nat.add_assoc j n 1, Nat.add_assoc b n 1]
      rw [map_some, bind_some, bind_some, patch_patch,
        ih hrest hfront hlater (by omega) (hr.patch w' (r + 1)), length_cons,
        Nat.add_right_comm, Nat.add_assoc]

end Ready

/-- The names of a key, without its trailing slash. -/
def names (key : UniConfKey) : UniConfKey := key.filter (· ≠ [])

/-- What `append` puts behind a key. -/
def added (key : UniConfKey) : UniConfKey :=
  names key ++ if key.isempty || key.hastrailingslash then [[]] else []

section Names

variable {K L : UniConfKey}

theorem names_plain (hK : K.Plain) : names K = K := hK.filter_eq

theorem names_slash (hK : K.Plain) : names (K ++ [[]]) = K := by
  rw [names, filter_append, hK.filter_eq]
  exact append_nil K

theorem plain_names (K : UniConfKey) : (names K).Plain := by
  intro hmem
  exact of_decide_eq_true (mem_filter.mp hmem).2 rfl

theorem names_append (hL : L.Valid) : ∃ slash : UniConfKey,
    (slash = [] ∨ slash = [[]]) ∧ L = names L ++ slash := by
  rcases hL.cases with hplain | ⟨front, -, hfront, rfl⟩
  · exact ⟨[], .inl rfl, by rw [append_nil, names_plain hplain]⟩
  · exact ⟨[[]], .inr rfl, by rw [names_slash hfront]⟩

theorem names_eq_nil (hL : L.Valid) : names L = [] ↔ L = [] := by
  constructor
  · intro hnil
    rcases hL.cases with hplain | ⟨front, hne, hfront, rfl⟩
    · rwa [names_plain hplain] at hnil
    · rw [names_slash hfront] at hnil
      exact absurd hnil hne
  · rintro rfl
    rfl

theorem added_of_ne (hK : K.Valid) (hne : K ≠ []) : added K = K := by
  have hempty : K.isempty = false := by
    rw [isempty, isEmpty_eq_false_iff]
    exact hne
  rw [added, hempty, Bool.false_or]
  rcases hK.cases with hplain | ⟨front, -, hfront, rfl⟩
  · rw [names_plain hplain, hplain.not_slash, if_neg Bool.false_ne_true, append_nil]
  · rw [slash_hastrailingslash, if_pos rfl, names_slash hfront]

theorem length_added (hL : L.Valid) : (added L).length = max L.length 1 := by
  by_cases hne : L = []
  · rw [hne]
    rfl
  · rw [added_of_ne hL hne, max_eq_left (length_pos_iff.mpr hne)]

theorem concat_eq (K L : UniConfKey) :
    UniConfKey.concat K L = UniConfKey.collapse (names K ++ added L) := by
  rw [UniConfKey.concat, added, names, names, append_assoc]

theorem valid_collapse {slash : UniConfKey} (hK : K.Plain) (hslash : slash = [] ∨ slash = [[]]) :
    (UniConfKey.collapse (K ++ slash)).Valid := by
  rcases hslash with rfl | rfl
  · rw [append_nil, hK.collapse_eq]
    exact hK.valid
  · by_cases hne : K = []
    · rw [hne]
      exact UniConfKey.plain_nil.valid
    · rw [UniConfKey.collapse, if_neg (by simpa using hne)]
      exact UniConfKey.valid_slash hne hK

theorem valid_names_added (K : UniConfKey) (L : UniConfKey) :
    (UniConfKey.collapse (names K ++ added L)).Valid := by
  have hplain := (plain_names K).append (plain_names L)
  rw [added, ← append_assoc]
  apply valid_collapse hplain
  split
  · exact .inr rfl
  · exact .inl rfl

theorem same_self (K : UniConfKey) : K.same K = true := beq_self_eq_true _

theorem length_of_same (h : K.same L = true) : K.length = L.length := by
  rw [same, beq_iff_eq] at h
  exact length_congr h

end Names

/-- The operation comes to an end within the vectors, makes the key what it is to be, and leaves
all other keys as they are. -/
def Makes (run : Nat → Option KeyHeap) (h : KeyHeap) (k : Nat) (key : UniConfKey) : Prop :=
  ∃ fuel h', (∀ n, fuel ≤ n → run n = some h') ∧
    (∃ shown, h'.value k = some shown ∧ shown.same key = true) ∧ ∀ i, i ≠ k → h'.value i = h.value i

section Makes

variable {run : Nat → Option KeyHeap} {h h' : KeyHeap} {k fuel : Nat} {key shown : UniConfKey}

theorem Made.makes_iff (hmade : Made h h' k shown) (hrun : ∀ n, fuel < n → run n = some h') :
    Makes run h k key ↔ shown.same key = true := by
  constructor
  · rintro ⟨fuel', h'', hrun', ⟨shown', hvalue', hsame⟩, -⟩
    have heq := hrun' (fuel + fuel' + 1) (by omega)
    rw [hrun (fuel + fuel' + 1) (by omega)] at heq
    obtain rfl := some.inj heq
    obtain rfl := some.inj (hmade.value.symm.trans hvalue')
    exact hsame
  · intro hsame
    exact ⟨fuel + 1, h', fun n hn => hrun n (by omega), ⟨shown, hmade.value, hsame⟩,
      fun i hi => (hmade.others i hi).value⟩

theorem Makes.result (hmakes : Makes run h k key) (fuel : Nat) : ∃ n h' shown, fuel < n ∧
    run n = some h' ∧ h'.value k = some shown ∧ shown.same key = true := by
  obtain ⟨fuel', h', hrun, ⟨shown, hvalue, hsame⟩, -⟩ := hmakes
  exact ⟨fuel + fuel' + 1, h', shown, by omega, hrun _ (by omega), hvalue, hsame⟩

theorem not_makes (hrun : ∀ n, fuel < n → run n = none) : ¬ Makes run h k key := by
  intro hmakes
  obtain ⟨n, h', -, hn, hsome, -⟩ := hmakes.result fuel
  rw [hrun n hn] at hsome
  cases hsome

end Makes

end KeyHeap

end WvStreams
