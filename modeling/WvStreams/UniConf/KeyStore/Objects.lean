import WvStreams.UniConf.KeyStore.Edit
import WvStreams.UniConf.KeyStore.Strings

/-!
# Making keys, and letting them go

Copies and ranges share the store, and what the other constructors make has a store of its own.
Each of them keeps the heap consistent.
-/

namespace WvStreams

open List

open SegmentVector

open UniConfKey

namespace KeyHeap

/-- `UniConfKey(key)` of a string, where `size` is 4, or of a number, where it is 1. -/
def string (h : KeyHeap) (size : Nat) (key : Str) : Option KeyHeap := do
  let v ← newStore size key
  some ((h.allocate v).push ⟨h.fresh, 0, v.used⟩)

def copy (h : KeyHeap) (k : Nat) : Option KeyHeap := do
  let other ← h.key k
  some ((h.push other).retain other.store)

def assign (h : KeyHeap) (k l : Nat) : Option KeyHeap := do
  let o ← h.key k
  let other ← h.key l
  some (h.redirect k o.store other)

def destroy (h : KeyHeap) (k : Nat) : Option KeyHeap := do
  let o ← h.key k
  some ((h.release o.store).setKey k none)

def concat (h : KeyHeap) (path key : Nat) : Option KeyHeap := do
  let _path ← h.key path
  let _key ← h.key key
  let hastrailingslash ← h.ends key
  let source ← h.stores _path.store
  let front ← readRange source _path.left (_path.right - _path.left)
  let source ← h.stores _key.store
  let back ← readRange source _key.left (_key.right - _key.left)
  let segments := front.filter (· ≠ []) ++ back.filter (· ≠ []) ++
    if hastrailingslash then [[]] else []
  let v ← segments.foldlM SegmentVector.append
    (.ofSize ((_path.right - _path.left) + (_key.right - _key.left) + 1))
  ((h.allocate v).push ⟨h.fresh, 0, segments.length⟩).collapse h.keys.length

/-- The ends of a range in a key with `n` segments. -/
def bounds (n : Nat) (i j : Int) : Nat × Nat :=
  let j := if n < j then (n : Int) else j
  let i := if i < 0 then 0 else i
  let j := if j < i then i else j
  (i.toNat, j.toNat)

/-- `range(i, j)`, of which `first`, `last`, `removefirst`, `removelast` and `segment` are cases. -/
def range (h : KeyHeap) (k : Nat) (i j : Int) : Option KeyHeap := do
  let o ← h.key k
  let ends := bounds (o.right - o.left) i j
  ((h.push ⟨o.store, o.left + ends.1, o.left + ends.2⟩).retain o.store).collapse h.keys.length

/-- The number of segments that `pop` takes from a key with `n` segments. -/
def popped (n : Nat) (i : Int) : Nat :=
  let i := if n < i then (n : Int) else i
  let i := if i < 0 then 0 else i
  i.toNat

def pop (h : KeyHeap) (k : Nat) (n : Int) : Option KeyHeap :=
  if n = 0 then some ((h.push ⟨EMPTY_store, 0, 0⟩).retain EMPTY_store)
  else do
    let h ← h.unique k
    let o ← h.key k
    let left := o.left + popped (o.right - o.left) n
    let h := h.setKey k (some ⟨o.store, left, o.right⟩)
    let result := h.keys.length
    let h := (h.push ⟨o.store, o.left, left⟩).retain o.store
    let h ← h.collapse k
    h.collapse result

section Objects

variable {h h₁ : KeyHeap} {k l i : Nat} {o o' p : KeyFields} {v source : SegmentVector}

theorem key_push (h : KeyHeap) (o : KeyFields) :
    (h.push o).key h.keys.length = some o ∧
      ∀ i, i ≠ h.keys.length → (h.push o).key i = h.key i := by
  constructor
  · show (h.keys ++ [some o])[h.keys.length]?.join = _
    rw [getElem?_concat_length]
    rfl
  · intro i hi
    show (h.keys ++ [some o])[i]?.join = h.keys[i]?.join
    by_cases hlt : i < h.keys.length
    · rw [getElem?_append_left hlt]
    · have hbeyond : (h.keys ++ [some o]).length ≤ i := by
        rw [length_append, length_singleton]
        omega
      rw [getElem?_eq_none hbeyond, getElem?_eq_none (by omega)]

theorem untouched_share (h : KeyHeap) (o : KeyFields) (hi : i ≠ h.keys.length) :
    Untouched h ((h.push o).retain o.store) i where
  key := (key_push h o).2 i hi
  store _ _ := rfl

theorem Counted.untouched_create (hh : h.Counted) (v : SegmentVector) (right : Nat)
    (hi : i ≠ h.keys.length) : Untouched h ((h.allocate v).push ⟨h.fresh, 0, right⟩) i where
  key := (key_push (h.allocate v) _).2 i hi
  store _ ho := Function.update_of_ne (hh.not_fresh ho).ne _ _

theorem sees_create (h : KeyHeap) (v : SegmentVector) (right : Nat) :
    Sees ((h.allocate v).push ⟨h.fresh, 0, right⟩) h.keys.length ⟨h.fresh, 0, right⟩ v where
  key := (key_push (h.allocate v) _).1
  store := Function.update_self _ _ _

theorem Sees.share (hk : Sees h k o v) (o' : KeyFields) (heq : o'.store = o.store) :
    Sees ((h.push o').retain o'.store) h.keys.length o' v where
  key := (key_push h o').1
  store := by
    rw [heq]
    exact hk.store

theorem Consistent.of_untouched (hh : h.Consistent) (hcounted : h₁.Counted)
    (hself : h₁.Shown k) (hothers : ∀ i, i ≠ k → Untouched h h₁ i) : h₁.Consistent where
  counted := hcounted
  shows_ i := by
    by_cases hi : i = k
    · rw [hi]
      exact hself
    · exact (hothers i hi).shown (hh.shows_ i)

theorem Sees.shown (hk : Sees h k o v) (hv : Shows v o) : h.Shown k := by
  intro o' v' hk' hv'
  obtain ⟨rfl, rfl⟩ := hk.unique ⟨hk', hv'⟩
  exact hv

theorem Consistent.collapse (hh : h.Consistent) (hcounted : h₁.Counted) (hk : Sees h₁ k o v)
    (hothers : ∀ i, i ≠ k → Untouched h h₁ i) (hleft : o.left ≤ o.right)
    (hright : o.left = o.right ∨ o.right ≤ v.vec.length)
    (hused : o.right ≤ v.used ∨ o.left = o.right)
    (hvalid : (UniConfKey.collapse (v.slice o.left o.right)).Valid) :
    ∃ h', h₁.collapse k = some h' ∧ h'.Consistent ∧
      h'.value k = some (UniConfKey.collapse (v.slice o.left o.right)) := by
  obtain ⟨h', hcollapse, hcounted', hvalue, hothers', hself⟩ := hcounted.collapse hk hleft hright
  exact ⟨h', hcollapse, hh.of_untouched hcounted' (hself hused hvalid)
    fun i hi => (hothers i hi).trans (hothers' i hi), hvalue⟩

theorem Consistent.string (hh : h.Consistent) (size : Nat) (key : Str) :
    ∃ h', h.string size key = some h' ∧ h'.Consistent ∧
      h'.value h.keys.length = some (ofString key) := by
  obtain ⟨rest, hstore⟩ := newStore_eq size key
  have hsees := sees_create h ⟨ofString key ++ rest, (ofString key).length⟩
    (ofString key).length
  have hslice : slice
      ⟨ofString key ++ rest, (ofString key).length⟩ 0
        (ofString key).length = ofString key := by
    rw [slice, drop_zero]
    exact take_left
  have hinside : (ofString key).length ≤ (ofString key ++ rest).length := by
    rw [length_append]
    exact Nat.le_add_right _ _
  refine ⟨_, ?_, hh.of_untouched (hh.counted.create _ _ _) (hsees.shown ?_)
    fun i hi => hh.counted.untouched_create _ _ hi, ?_⟩
  · rw [KeyHeap.string, hstore]
    rfl
  · exact ⟨Nat.zero_le _, le_refl _, hinside, by rw [hslice]; exact valid_ofString key,
      fun heq => heq.symm⟩
  · rw [hsees.value hinside, hslice]

theorem Consistent.copy (hh : h.Consistent) (hk : Sees h k o v) :
    ∃ h', h.copy k = some h' ∧ h'.Consistent := by
  have hthere := hh.counted.alive hk
  refine ⟨_, ?_, hh.of_untouched (hh.counted.share hthere) ((hk.share o rfl).shown (hh.shows hk))
    fun i hi => untouched_share h o hi⟩
  rw [KeyHeap.copy, hk.key]
  rfl

theorem Consistent.destroy (hh : h.Consistent) (hk : Sees h k o v) :
    ∃ h', h.destroy k = some h' ∧ h'.Consistent := by
  refine ⟨(h.release o.store).setKey k none, ?_, hh.of_untouched (hh.counted.drop hk.key) ?_
    fun i hi => hh.counted.untouched_release hk.key none hi⟩
  · rw [KeyHeap.destroy, hk.key]
    rfl
  · intro o' v' ho'
    rw [(key_setKey (h := h.release o.store) hk.key none).1] at ho'
    cases ho'

theorem Consistent.assign (hh : h.Consistent) (hk : Sees h k o v) (hl : Sees h l p source)
    (hne : k ≠ l ∨ h.ref_count o.store ≠ 1) : ∃ h', h.assign k l = some h' ∧ h'.Consistent := by
  have hthere := hh.counted.alive hl
  have hstays : p.store = o.store → h.ref_count o.store ≠ 1 := by
    intro heq
    rcases hne with hne | hshared
    · intro hone
      exact hh.counted.alone hk.key hone hl.key (Ne.symm hne) heq
    · exact hshared
  have hkeys := key_setKey (h := h.release o.store) hk.key (some p)
  have hsees : Sees (h.redirect k o.store p) k p source := by
    refine ⟨hkeys.1, ?_⟩
    show (h.release o.store).stores p.store = _
    rw [release_stores, if_neg fun hboth => hstays hboth.1 hboth.2, hl.store]
  refine ⟨h.redirect k o.store p, ?_, hh.of_untouched (hh.counted.redirect hk.key hthere hstays)
    (hsees.shown (hh.shows hl)) fun i hi => hh.counted.untouched_redirect hk.key p hi⟩
  rw [KeyHeap.assign, hk.key]
  show (h.key l).bind _ = _
  rw [hl.key]
  rfl

theorem Consistent.concat (hh : h.Consistent) (hk : Sees h k o v) (hl : Sees h l p source) :
    ∃ h', h.concat k l = some h' ∧ h'.Consistent ∧ h'.value h.keys.length =
      some (UniConfKey.concat (v.slice o.left o.right) (source.slice p.left p.right)) := by
  have hread : ∀ {k o v}, Sees h k o v →
      readRange v o.left (o.right - o.left) = some (v.slice o.left o.right) := by
    intro k o v hk
    have hordered := (hh.shows hk).ordered
    have hinside := (hh.shows hk).inside
    have hend : o.left + (o.right - o.left) = o.right := by omega
    rw [readRange_eq (by omega), hend]
  have hroom : (names (v.slice o.left o.right) ++ added (source.slice p.left p.right)).length ≤
      (o.right - o.left) + (p.right - p.left) + 1 := by
    have hfront : (names (v.slice o.left o.right)).length ≤ (v.slice o.left o.right).length :=
      length_filter_le _ _
    have hback := length_added (hh.shows hl).valid
    rw [length_slice _ (hh.shows hk).inside] at hfront
    rw [length_slice _ (hh.shows hl).inside] at hback
    have hordered := (hh.shows hl).ordered
    rw [length_append, hback]
    omega
  have hfold := foldlM_append_ofSize hroom
  generalize hsegments :
    names (v.slice o.left o.right) ++ added (source.slice p.left p.right) = segments at *
  generalize hvector : replicate ((o.right - o.left) + (p.right - p.left) + 1 -
    segments.length) ([] : Segment) = rest at *
  have hslice : slice ⟨segments ++ rest, segments.length⟩ 0 segments.length =
      segments := by
    rw [slice, drop_zero]
    exact take_left
  have hinside : segments.length ≤ (segments ++ rest).length := by
    rw [length_append]
    exact Nat.le_add_right _ _
  have hvalid := valid_names_added (v.slice o.left o.right) (source.slice p.left p.right)
  obtain ⟨h', hcollapse, hconsistent, hvalue⟩ := hh.collapse
    (hh.counted.create ⟨segments ++ rest, segments.length⟩ 0 segments.length)
    (sees_create h ⟨segments ++ rest, segments.length⟩ segments.length)
    (fun i hi => hh.counted.untouched_create _ _ hi) (Nat.zero_le _) (Or.inr hinside)
    (Or.inl (le_refl _)) (by rw [hslice, ← hsegments]; exact hvalid)
  rw [hslice] at hvalue
  refine ⟨h', ?_, hconsistent, ?_⟩
  · rw [KeyHeap.concat, hk.key]
    show (h.key l).bind _ = _
    rw [hl.key]
    show (h.ends l).bind _ = _
    rw [ends_eq hl (hh.shows hl)]
    show (h.stores o.store).bind _ = _
    rw [hk.store]
    show (readRange v o.left (o.right - o.left)).bind _ = _
    rw [hread hk]
    show (h.stores p.store).bind _ = _
    rw [hl.store]
    show (readRange source p.left (p.right - p.left)).bind _ = _
    rw [hread hl, Option.bind_some]
    rw [append_assoc]
    have hput : (v.slice o.left o.right).filter (· ≠ []) ++
        ((source.slice p.left p.right).filter (· ≠ []) ++
          if (UniConfKey.isempty (source.slice p.left p.right) ||
            UniConfKey.hastrailingslash (source.slice p.left p.right)) = true then [[]] else []) =
        segments := hsegments
    rw [hput]
    show Option.bind (segments.foldlM _ _) _ = _
    rw [hfold]
    exact hcollapse
  · rw [hvalue, concat_eq, hsegments]

theorem slice_slice (v : SegmentVector) (left right i j : Nat) (h : left + j ≤ right) :
    v.slice (left + i) (left + j) = ((v.slice left right).take j).drop i := by
  rw [slice, slice, take_drop, take_take, Nat.min_eq_left h, drop_drop]

theorem valid_part (hv : Shows v o) {i j : Nat} (hi : o.left ≤ i) (hij : i ≤ j)
    (hj : j ≤ o.right) : (UniConfKey.collapse (v.slice i j)).Valid := by
  obtain ⟨i, rfl⟩ := Nat.exists_eq_add_of_le hi
  obtain ⟨j, rfl⟩ := Nat.exists_eq_add_of_le (hi.trans hij)
  rw [slice_slice v _ _ _ _ hj]
  exact hv.valid.range _ _

theorem bounds_cases (n : Nat) (i j : Int) : (bounds n i j).1 ≤ (bounds n i j).2 ∧
    ((bounds n i j).1 = (bounds n i j).2 ∨ (bounds n i j).2 ≤ n) := by
  unfold bounds
  dsimp only
  generalize hend : (if (n : Int) < j then (n : Int) else j) = e
  generalize hbegin : (if i < 0 then 0 else i) = b
  generalize hlast : (if e < b then b else e) = r
  have he : e ≤ n := by split at hend <;> omega
  have hb : 0 ≤ b := by split at hbegin <;> omega
  split at hlast <;> omega

theorem Consistent.range (hh : h.Consistent) (hk : Sees h k o v) (i j : Int) :
    ∃ h', h.range k i j = some h' ∧ h'.Consistent := by
  have hshows := hh.shows hk
  have hordered := hshows.ordered
  obtain ⟨hends', hends⟩ := bounds_cases (o.right - o.left) i j
  have hright : o.left + (bounds (o.right - o.left) i j).1 =
      o.left + (bounds (o.right - o.left) i j).2 ∨
        o.left + (bounds (o.right - o.left) i j).2 ≤ o.right := by omega
  have hthere := hh.counted.alive hk
  have hvalid : (UniConfKey.collapse (v.slice (o.left + (bounds (o.right - o.left) i j).1)
      (o.left + (bounds (o.right - o.left) i j).2))).Valid := by
    rcases hright with heq | hle
    · rw [heq, v.slice_empty]
      exact UniConfKey.plain_nil.valid
    · exact valid_part hshows (Nat.le_add_right _ _) (Nat.add_le_add_left hends' _) hle
  obtain ⟨h', hcollapse, hconsistent, -⟩ := hh.collapse
    (hh.counted.share (o := ⟨o.store, o.left + (bounds (o.right - o.left) i j).1,
      o.left + (bounds (o.right - o.left) i j).2⟩) hthere)
    (hk.share ⟨o.store, o.left + (bounds (o.right - o.left) i j).1,
      o.left + (bounds (o.right - o.left) i j).2⟩ rfl)
    (fun i hi => untouched_share h _ hi) (Nat.add_le_add_left hends' _)
    (hright.imp_right fun hle => hle.trans hshows.inside)
    (hright.symm.imp_left fun hle => hle.trans hshows.used) hvalid
  refine ⟨h', ?_, hconsistent⟩
  rw [KeyHeap.range, hk.key]
  exact hcollapse

theorem popped_le (n : Nat) (i : Int) : popped n i ≤ n := by
  unfold popped
  dsimp only
  generalize hcut : (if (n : Int) < i then (n : Int) else i) = e
  have he : e ≤ n := by split at hcut <;> omega
  split <;> omega

theorem Consistent.take_front (hh : h.Consistent) (hk : Sees h k o v) {left : Nat}
    (hleft : o.left ≤ left) (hright : left ≤ o.right) :
    ∃ h', ((((h.setKey k (some ⟨o.store, left, o.right⟩)).push ⟨o.store, o.left, left⟩).retain
      o.store).collapse k).bind (fun h' => h'.collapse h.keys.length) = some h' ∧
        h'.Consistent := by
  have hshows := hh.shows hk
  have hinside := hshows.inside
  have hused := hshows.used
  have hlt : k ≠ h.keys.length := by
    rintro rfl
    have hnone : h.key h.keys.length = none := by
      rw [KeyHeap.key, getElem?_eq_none (le_refl _)]
      rfl
    cases hnone.symm.trans hk.key
  have hkeys := key_setKey hk.key (some ⟨o.store, left, o.right⟩)
  have hlength : (h.setKey k (some ⟨o.store, left, o.right⟩)).keys.length = h.keys.length :=
    length_set
  have hsees : Sees (h.setKey k (some ⟨o.store, left, o.right⟩)) k ⟨o.store, left, o.right⟩ v :=
    ⟨hkeys.1, hk.store⟩
  have hmoved : ∀ i, i ≠ k → Untouched h (h.setKey k (some ⟨o.store, left, o.right⟩)) i :=
    fun i hi => ⟨hkeys.2 i hi, fun _ _ => rfl⟩
  have hcounted : (h.setKey k (some ⟨o.store, left, o.right⟩)).Counted :=
    hh.counted.reslice hk.key rfl
  generalize h.setKey k (some ⟨o.store, left, o.right⟩) = h₁ at *
  have hthere := hcounted.alive hsees
  have hshare := hcounted.share (o := ⟨o.store, o.left, left⟩) hthere
  have hnew := hsees.share ⟨o.store, o.left, left⟩ rfl
  have hadded := fun i => untouched_share (i := i) h₁ ⟨o.store, o.left, left⟩
  rw [hlength] at hnew hadded
  change Sees ((h₁.push ⟨o.store, o.left, left⟩).retain o.store) _ _ _ at hnew
  generalize (h₁.push ⟨o.store, o.left, left⟩).retain o.store = h₂ at *
  -- first the key, and then the new one
  obtain ⟨h₃, hcollapse, hcounted₃, -, hothers₃, hself₃⟩ :=
    hshare.collapse ((hadded k hlt).sees hsees) hright (Or.inr hinside)
  obtain ⟨h₄, hcollapse₄, hcounted₄, -, hothers₄, hself₄⟩ :=
    hcounted₃.collapse ((hothers₃ _ hlt.symm).sees hnew) hleft (Or.inr (hright.trans hinside))
  refine ⟨h₄, by rw [hcollapse, Option.bind_some, hcollapse₄], hcounted₄, fun i => ?_⟩
  by_cases hi : i = h.keys.length
  · rw [hi]
    exact hself₄ (Or.inl (hright.trans hused)) (valid_part hshows (le_refl _) hleft hright)
  · apply (hothers₄ i hi).shown
    by_cases hik : i = k
    · rw [hik]
      exact hself₃ (Or.inl hused) (valid_part hshows hleft hright (le_refl _))
    · exact (((hmoved i hik).trans (hadded i hi)).trans (hothers₃ i hik)).shown (hh.shows_ i)

theorem Consistent.pop (hh : h.Consistent) (hk : Sees h k o v) (n : Int) :
    ∃ h', h.pop k n = some h' ∧ h'.Consistent := by
  by_cases hn : n = 0
  · have hempty := hh.counted.empty_there.1
    have hthere : h.ref_count EMPTY_store ≠ 0 := by omega
    have hcounted := hh.counted.share (o := ⟨EMPTY_store, 0, 0⟩) hthere
    obtain ⟨w, hw⟩ := hcounted.sees (key_push h ⟨EMPTY_store, 0, 0⟩).1
    refine ⟨_, if_pos hn, hh.of_untouched hcounted (hw.shown ?_)
      fun i hi => untouched_share h _ hi⟩
    refine ⟨Nat.zero_le _, Nat.zero_le _, Nat.zero_le _, ?_, fun _ => rfl⟩
    rw [w.slice_empty]
    exact plain_nil.valid
  · obtain ⟨h₁, o₁, v₁, hunique, hr, hshows, -, hothers, -⟩ := hh.own hk
    have hh₁ : h₁.Consistent := hh.of_untouched hr.counted (hr.shown hshows) hothers
    have hm := popped_le (o₁.right - o₁.left) n
    have hordered := hshows.ordered
    obtain ⟨h', hrest, hconsistent⟩ := hh₁.take_front hr.toSees
      (Nat.le_add_right o₁.left (popped (o₁.right - o₁.left) n)) (by omega)
    refine ⟨h', ?_, hconsistent⟩
    rw [KeyHeap.pop, if_neg hn, hunique]
    show (h₁.key k).bind _ = _
    rw [hr.key]
    have hlength : (h₁.setKey k (some ⟨o₁.store, o₁.left + popped (o₁.right - o₁.left) n,
        o₁.right⟩)).keys.length = h₁.keys.length := length_set
    rw [← hlength] at hrest
    exact hrest

end Objects

end KeyHeap

end WvStreams
