import WvStreams.UniConf.KeyStore.Vector

/-!
# Keys that share a store

A key has an address of a store, which counts the keys that have it, and shows the segments from
`left` to `right` there. A key that goes, or goes to another store, frees its old one if that
counts to zero. In a `Consistent` heap every count is right and every key shows a valid key within
its vector. An operation on one key leaves all others `Untouched`.
-/

namespace WvStreams

open Function Option List

open SegmentVector

/-- The fields of a key: the address of its store, and its part of it. -/
structure KeyFields where
  store : Nat
  left : Nat
  right : Nat

/-- The stores that are there, by address, with their `ref_count`, the keys that have been made
(none for those that are gone), and the address of the next store. -/
structure KeyHeap where
  stores : Nat → Option SegmentVector
  ref_count : Nat → Nat
  keys : List (Option KeyFields)
  fresh : Nat

namespace KeyHeap

/-- The address of the store of `EMPTY`. Those of `ANY` and `RECURSIVE_ANY` follow. -/
def EMPTY_store : Nat := 0

/-- The static stores have an initial count of one, so that they stay. -/
def pinned (a : Nat) : Nat := if a < 3 then 1 else 0

def initial : KeyHeap where
  stores a :=
    if a = 0 then some (.ofSize 1)
    else if a = 1 then some ⟨[[42]], 1⟩
    else if a = 2 then some ⟨[[46, 46, 46]], 1⟩
    else none
  ref_count a := if a < 3 then 2 else 0
  keys := [some ⟨0, 0, 0⟩, some ⟨1, 0, 1⟩, some ⟨2, 0, 1⟩]
  fresh := 3

def key (h : KeyHeap) (k : Nat) : Option KeyFields := h.keys[k]?.join

/-- The key that is shown, if all of it is in its vector. -/
def value (h : KeyHeap) (k : Nat) : Option UniConfKey := do
  let o ← h.key k
  let v ← h.stores o.store
  if o.right ≤ v.vec.length then some (v.slice o.left o.right) else none

/-! ## Stores -/

/-- `--ref_count`, and the store is deleted at zero. -/
def release (h : KeyHeap) (a : Nat) : KeyHeap :=
  { h with
    stores := if h.ref_count a = 1 then Function.update h.stores a none else h.stores
    ref_count := Function.update h.ref_count a (h.ref_count a - 1) }

def retain (h : KeyHeap) (a : Nat) : KeyHeap :=
  { h with ref_count := Function.update h.ref_count a (h.ref_count a + 1) }

/-- `new Store` with a count of one. -/
def allocate (h : KeyHeap) (v : SegmentVector) : KeyHeap :=
  { h with
    stores := Function.update h.stores h.fresh (some v)
    ref_count := Function.update h.ref_count h.fresh 1
    fresh := h.fresh + 1 }

def setSegments (h : KeyHeap) (a : Nat) (v : SegmentVector) : KeyHeap :=
  { h with stores := Function.update h.stores a (some v) }

def setKey (h : KeyHeap) (k : Nat) (o : Option KeyFields) : KeyHeap :=
  { h with keys := h.keys.set k o }

def push (h : KeyHeap) (o : KeyFields) : KeyHeap := { h with keys := h.keys ++ [some o] }

/-! ## The private functions of a key -/

def lone (v : SegmentVector) (o : KeyFields) : Option Bool :=
  if o.right = o.left + 1 then v.vec[o.right - 1]?.map fun s => decide (s = []) else some false

def collapse (h : KeyHeap) (k : Nat) : Option KeyHeap := do
  let o ← h.key k
  let v ← h.stores o.store
  let lone ← lone v o
  if lone = true ∨ o.right = o.left then
    some (((h.release o.store).setKey k (some ⟨EMPTY_store, 0, 0⟩)).retain EMPTY_store)
  else some h

/-- The segments that a loop over a key reads. -/
def readRange (v : SegmentVector) (left : Nat) : Nat → Option (List Segment)
  | 0 => some []
  | n + 1 => do
    let segment ← v.vec[left]?
    let segments ← readRange v (left + 1) n
    some (segment :: segments)

def unique (h : KeyHeap) (k : Nat) : Option KeyHeap := do
  let o ← h.key k
  if h.ref_count o.store = 1 then some h
  else
    let old_store ← h.stores o.store
    let segments ← readRange old_store o.left (o.right - o.left)
    let v ← segments.foldlM SegmentVector.append (.ofSize (o.right - o.left))
    -- the old store has another key and stays
    some (((h.release o.store).allocate v).setKey k (some ⟨h.fresh, 0, o.right - o.left⟩))

/-! ## Counting -/

def uses (a : Nat) (o : Option KeyFields) : Bool := o.any fun o => o.store == a

def users (h : KeyHeap) (a : Nat) : Nat := h.keys.countP (uses a)

/-- The stores count their keys, and are there as long as they count any. -/
structure Counted (h : KeyHeap) : Prop where
  counts : ∀ a, h.ref_count a = h.users a + pinned a
  there : ∀ a, h.stores a ≠ none ↔ h.ref_count a ≠ 0
  fresh : ∀ a, h.fresh ≤ a → h.ref_count a = 0

section Counts

variable {h : KeyHeap} {k i a : Nat} {o o' : KeyFields} {v : SegmentVector}

theorem key_eq_some : h.key k = some o ↔ h.keys[k]? = some (some o) := by
  rw [key, join_eq_some_iff]

theorem key_setKey (hk : h.key k = some o) (x : Option KeyFields) :
    (h.setKey k x).key k = x ∧ ∀ i, i ≠ k → (h.setKey k x).key i = h.key i := by
  have hlt := (List.getElem?_eq_some_iff.mp (key_eq_some.mp hk)).1
  constructor
  · rw [key, setKey, getElem?_set_self hlt]
    rfl
  · intro i hi
    rw [key, setKey, getElem?_set_ne (Ne.symm hi)]
    rfl

theorem users_setKey (hk : h.key k = some o) (x : Option KeyFields) (a : Nat) :
    (h.setKey k x).users a + (if o.store = a then 1 else 0) =
      h.users a + (if uses a x = true then 1 else 0) := by
  have hget := List.getElem?_eq_some_iff.mp (key_eq_some.mp hk)
  obtain ⟨hlt, hget⟩ := hget
  have hself : uses a (some o) = true ↔ o.store = a := by simp [uses]
  have hpos : o.store = a → 0 < h.users a := by
    intro hoa
    apply countP_pos_iff.mpr
    exact ⟨some o, mem_of_getElem? (key_eq_some.mp hk), hself.mpr hoa⟩
  rw [users, setKey, countP_set hlt, hget]
  simp only [hself]
  by_cases hoa : o.store = a
  · have := hpos hoa
    simp only [hoa, if_true]
    unfold users at *
    omega
  · simp only [hoa, if_false]
    unfold users at *
    omega

theorem users_pos (hk : h.key k = some o) : 0 < h.users o.store := by
  have hset := users_setKey hk none o.store
  have hnone : uses o.store none = false := rfl
  rw [if_pos rfl, hnone, if_neg Bool.false_ne_true] at hset
  omega

theorem two_users (hk : h.key k = some o) (hi : h.key i = some o') (hne : i ≠ k)
    (hstore : o'.store = o.store) : 2 ≤ h.users o.store := by
  have hset := users_setKey hk none o.store
  have hnone : uses o.store none = false := rfl
  have hother : (h.setKey k none).key i = some o' := by rw [(key_setKey hk none).2 i hne, hi]
  have hpos := users_pos hother
  rw [if_pos rfl, hnone, if_neg Bool.false_ne_true] at hset
  rw [hstore] at hpos
  omega

theorem users_push (o : KeyFields) (a : Nat) :
    (h.push o).users a = h.users a + (if o.store = a then 1 else 0) := by
  rw [users, push, countP_append, countP_singleton, users]
  simp [uses]

theorem Counted.store_of_key (hh : h.Counted) (hk : h.key k = some o) :
    ∃ v, h.stores o.store = some v := by
  apply ne_none_iff_exists'.mp
  rw [hh.there, hh.counts]
  have := users_pos hk
  omega

theorem Counted.alone (hh : h.Counted) (hk : h.key k = some o) (hone : h.ref_count o.store = 1)
    (hi : h.key i = some o') (hne : i ≠ k) : o'.store ≠ o.store := by
  intro hstore
  have htwo := two_users hk hi hne hstore
  have hcount := hh.counts o.store
  omega

theorem Counted.not_fresh (hh : h.Counted) (hk : h.key k = some o) : o.store < h.fresh := by
  by_contra hle
  have hzero := hh.fresh o.store (Nat.le_of_not_lt hle)
  have hcount := hh.counts o.store
  have := users_pos hk
  omega

theorem Counted.empty_there (hh : h.Counted) :
    h.users EMPTY_store + 1 = h.ref_count EMPTY_store ∧ EMPTY_store < h.fresh := by
  have hcount := hh.counts EMPTY_store
  have hpinned : pinned EMPTY_store = 1 := rfl
  refine ⟨by omega, ?_⟩
  by_contra hle
  have hzero := hh.fresh EMPTY_store (Nat.le_of_not_lt hle)
  omega

theorem release_stores (h : KeyHeap) (a b : Nat) :
    (h.release a).stores b = if b = a ∧ h.ref_count a = 1 then none else h.stores b := by
  unfold release
  dsimp only
  by_cases hone : h.ref_count a = 1
  · rw [if_pos hone, update_apply]
    simp [hone]
  · rw [if_neg hone, if_neg fun hboth => hone hboth.2]

theorem release_ref_count (h : KeyHeap) (a b : Nat) :
    (h.release a).ref_count b = h.ref_count b - (if b = a then 1 else 0) := by
  unfold release
  dsimp only
  rw [update_apply]
  split
  · rename_i hba
    rw [hba]
  · rfl

theorem retain_ref_count (h : KeyHeap) (a b : Nat) :
    (h.retain a).ref_count b = h.ref_count b + (if b = a then 1 else 0) := by
  unfold retain
  dsimp only
  rw [update_apply]
  split
  · rename_i hba
    rw [hba]
  · rfl

def redirect (h : KeyHeap) (k a : Nat) (o' : KeyFields) : KeyHeap :=
  ((h.release a).setKey k (some o')).retain o'.store

theorem Counted.redirect (hh : h.Counted) (hk : h.key k = some o)
    (hthere : h.ref_count o'.store ≠ 0)
    (hstays : o'.store = o.store → h.ref_count o.store ≠ 1) : (h.redirect k o.store o').Counted := by
  have hpos := users_pos hk
  have hown := hh.counts o.store
  have hrefs : ∀ a, (h.redirect k o.store o').ref_count a = h.ref_count a -
      (if a = o.store then 1 else 0) + (if a = o'.store then 1 else 0) := by
    intro a
    rw [KeyHeap.redirect, retain_ref_count]
    exact congrArg (· + _) (release_ref_count h o.store a)
  have hstores : ∀ a, (h.redirect k o.store o').stores a =
      if a = o.store ∧ h.ref_count o.store = 1 then none else h.stores a :=
    release_stores h o.store
  refine ⟨fun a => ?_, fun a => ?_, fun a ha => ?_⟩
  · have husers : (h.redirect k o.store o').users a + (if o.store = a then 1 else 0) =
        h.users a + (if uses a (some o') = true then 1 else 0) :=
      users_setKey (h := h.release o.store) hk _ a
    have hcount := hh.counts a
    have huses : uses a (some o') = true ↔ a = o'.store := beq_iff_eq.trans eq_comm
    simp only [huses] at husers
    rw [hrefs]
    by_cases hao : a = o.store
    · rw [hao, if_pos rfl] at husers
      rw [hao, if_pos rfl]
      omega
    · rw [if_neg (Ne.symm hao)] at husers
      rw [if_neg hao]
      omega
  · rw [hstores, hrefs]
    have halive := hh.there a
    by_cases hao : a = o.store
    · subst hao
      by_cases hone : h.ref_count o.store = 1
      · have hne : o.store ≠ o'.store := fun heq => hstays heq.symm hone
        simp [hone, hne]
      · rw [if_neg fun hboth => hone hboth.2, halive, if_pos rfl]
        omega
    · rw [if_neg fun hboth => hao hboth.1, halive, if_neg hao]
      by_cases hae : a = o'.store
      · rw [if_pos hae, hae]
        omega
      · rw [if_neg hae]
        omega
  · have hzero : h.ref_count a = 0 := hh.fresh a ha
    have hne : a ≠ o'.store := by
      rintro rfl
      exact hthere hzero
    rw [hrefs, hzero]
    simp [hne]

/-- A key becomes the empty key. -/
def emptied (h : KeyHeap) (k a : Nat) : KeyHeap := h.redirect k a ⟨EMPTY_store, 0, 0⟩

theorem Counted.emptied (hh : h.Counted) (hk : h.key k = some o) :
    (h.emptied k o.store).Counted := by
  have hcount := hh.empty_there.1
  apply hh.redirect hk
  · show h.ref_count EMPTY_store ≠ 0
    omega
  · intro heq
    have hpos := users_pos hk
    rw [← heq] at hpos ⊢
    have huse : 0 < h.users EMPTY_store := hpos
    show h.ref_count EMPTY_store ≠ 1
    omega

theorem Counted.drop (hh : h.Counted) (hk : h.key k = some o) :
    ((h.release o.store).setKey k none).Counted := by
  have hown := hh.counts o.store
  have hpos := users_pos hk
  refine ⟨fun a => ?_, fun a => ?_, fun a ha => ?_⟩
  · have husers := users_setKey (h := h.release o.store) hk none a
    have hnone : uses a none = false := rfl
    have hcount := hh.counts a
    have hrelease : (h.release o.store).users a = h.users a := rfl
    rw [hnone, if_neg Bool.false_ne_true, hrelease] at husers
    show (h.release o.store).ref_count a = _
    rw [release_ref_count]
    by_cases hao : a = o.store
    · rw [hao, if_pos rfl] at husers ⊢
      rw [hao] at hcount
      omega
    · rw [if_neg (Ne.symm hao)] at husers
      rw [if_neg hao]
      omega
  · show (h.release o.store).stores a ≠ none ↔ (h.release o.store).ref_count a ≠ 0
    have halive := hh.there a
    rw [release_stores, release_ref_count]
    by_cases hao : a = o.store
    · subst hao
      by_cases hone : h.ref_count o.store = 1
      · simp [hone]
      · rw [if_neg fun hboth => hone hboth.2, halive, if_pos rfl]
        omega
    · rw [if_neg fun hboth => hao hboth.1, if_neg hao]
      exact halive
  · show (h.release o.store).ref_count a = 0
    have hzero := hh.fresh a ha
    rw [release_ref_count, hzero, Nat.zero_sub]

theorem Counted.share (hh : h.Counted) (hthere : h.ref_count o.store ≠ 0) :
    ((h.push o).retain o.store).Counted := by
  refine ⟨fun a => ?_, fun a => ?_, fun a ha => ?_⟩
  · have husers : ((h.push o).retain o.store).users a = _ := users_push o a
    have hcount : (h.push o).ref_count a = _ := hh.counts a
    rw [retain_ref_count, husers, hcount]
    by_cases hao : a = o.store
    · rw [if_pos hao, if_pos hao.symm]
      omega
    · rw [if_neg hao, if_neg (Ne.symm hao)]
      omega
  · show h.stores a ≠ none ↔ _
    have hcount : (h.push o).ref_count a = h.ref_count a := rfl
    rw [retain_ref_count, hcount, hh.there]
    by_cases hao : a = o.store
    · rw [hao]
      omega
    · rw [if_neg hao]
      omega
  · have hzero : (h.push o).ref_count a = 0 := hh.fresh a ha
    have hne : a ≠ o.store := by
      rintro rfl
      exact hthere hzero
    rw [retain_ref_count, hzero, if_neg hne]

theorem Counted.create (hh : h.Counted) (v : SegmentVector) (left right : Nat) :
    ((h.allocate v).push ⟨h.fresh, left, right⟩).Counted := by
  obtain ⟨-, hempty⟩ := hh.empty_there
  refine ⟨fun a => ?_, fun a => ?_, fun a ha => ?_⟩
  · have husers : ((h.allocate v).push ⟨h.fresh, left, right⟩).users a = h.users a + _ :=
      users_push (h := h.allocate v) ⟨h.fresh, left, right⟩ a
    have hcount := hh.counts a
    rw [husers]
    show update h.ref_count h.fresh 1 a = _
    rw [update_apply]
    by_cases haf : a = h.fresh
    · have hzero := hh.fresh a haf.ge
      rw [if_pos haf, if_pos haf.symm]
      omega
    · rw [if_neg haf, if_neg (Ne.symm haf)]
      omega
  · show update h.stores h.fresh (some v) a ≠ none ↔ update h.ref_count h.fresh 1 a ≠ 0
    rw [update_apply, update_apply]
    split
    · exact iff_of_true (some_ne_none v) one_ne_zero
    · exact hh.there a
  · have hle : h.fresh + 1 ≤ a := ha
    show update h.ref_count h.fresh 1 a = 0
    rw [update_of_ne (by omega)]
    exact hh.fresh a (by omega)

def moved (h : KeyHeap) (k : Nat) (o : KeyFields) (v : SegmentVector) : KeyHeap :=
  ((h.release o.store).allocate v).setKey k (some ⟨h.fresh, 0, o.right - o.left⟩)

theorem moved_stores (hshared : h.ref_count o.store ≠ 1) (a : Nat) :
    (h.moved k o v).stores a = if a = h.fresh then some v else h.stores a := by
  show update (h.release o.store).stores h.fresh (some v) a = _
  have hrest : (h.release o.store).stores a = h.stores a := by
    rw [release_stores, if_neg fun hboth => hshared hboth.2]
  rw [update_apply, hrest]

theorem Counted.moved (hh : h.Counted) (hk : h.key k = some o)
    (hshared : h.ref_count o.store ≠ 1) : (h.moved k o v).Counted := by
  have hpos := users_pos hk
  have hown := hh.counts o.store
  have hold := hh.not_fresh hk
  obtain ⟨-, hfresh⟩ := hh.empty_there
  have hrefs : ∀ a, (h.moved k o v).ref_count a =
      if a = h.fresh then 1 else h.ref_count a - (if a = o.store then 1 else 0) := by
    intro a
    show update (h.release o.store).ref_count h.fresh 1 a = _
    rw [update_apply, release_ref_count]
  refine ⟨fun a => ?_, fun a => ?_, fun a ha => ?_⟩
  · have husers : (h.moved k o v).users a + (if o.store = a then 1 else 0) =
        h.users a + (if uses a (some ⟨h.fresh, 0, o.right - o.left⟩) = true then 1 else 0) :=
      users_setKey (h := (h.release o.store).allocate v) hk _ a
    have huses : uses a (some ⟨h.fresh, 0, o.right - o.left⟩) = true ↔ a = h.fresh :=
      beq_iff_eq.trans eq_comm
    have hcount := hh.counts a
    simp only [huses] at husers
    rw [hrefs]
    by_cases haf : a = h.fresh
    · have hzero := hh.fresh a haf.ge
      rw [if_pos haf, if_neg (by omega)] at husers
      rw [if_pos haf]
      omega
    · rw [if_neg haf] at husers ⊢
      by_cases hao : a = o.store
      · rw [hao, if_pos rfl] at husers
        rw [hao, if_pos rfl]
        omega
      · rw [if_neg (Ne.symm hao)] at husers
        rw [if_neg hao]
        omega
  · rw [moved_stores hshared, hrefs]
    by_cases haf : a = h.fresh
    · rw [if_pos haf, if_pos haf]
      exact iff_of_true (some_ne_none v) one_ne_zero
    · rw [if_neg haf, if_neg haf, hh.there]
      by_cases hao : a = o.store
      · rw [if_pos hao, hao]
        omega
      · rw [if_neg hao]
        omega
  · have hle : h.fresh + 1 ≤ a := ha
    have hzero := hh.fresh a (by omega)
    rw [hrefs, if_neg (by omega), hzero, Nat.zero_sub]

/-- A key that has its store for itself changes it, and its own end. -/
def patch (h : KeyHeap) (k : Nat) (o : KeyFields) (v : SegmentVector) (right : Nat) : KeyHeap :=
  (h.setSegments o.store v).setKey k (some ⟨o.store, o.left, right⟩)

theorem Counted.reslice (hh : h.Counted) (hk : h.key k = some o) (heq : o'.store = o.store) :
    (h.setKey k (some o')).Counted := by
  refine ⟨fun a => ?_, hh.there, hh.fresh⟩
  have husers := users_setKey hk (some o') a
  have huses : uses a (some o') = true ↔ o.store = a := by
    rw [← heq]
    exact beq_iff_eq
  simp only [huses] at husers
  show h.ref_count a = _
  rw [hh.counts]
  omega

theorem Counted.setSegments (hh : h.Counted) (hthere : h.stores a ≠ none) (v : SegmentVector) :
    (h.setSegments a v).Counted := by
  refine ⟨hh.counts, fun b => ?_, hh.fresh⟩
  show update h.stores a (some v) b ≠ none ↔ h.ref_count b ≠ 0
  rw [update_apply, ← hh.there]
  split
  · rename_i hba
    rw [hba]
    exact iff_of_true (some_ne_none v) hthere
  · exact Iff.rfl

theorem Counted.patch (hh : h.Counted) (hk : h.key k = some o) (right : Nat) :
    (h.patch k o v right).Counted := by
  obtain ⟨v₀, hv⟩ := hh.store_of_key hk
  have hset := hh.setSegments (a := o.store) (by rw [hv]; exact some_ne_none v₀) v
  exact hset.reslice hk rfl

end Counts

/-! ## What the keys show -/

/-- A key shows a valid key within what is in use of its vector, an empty one from the start. -/
structure Shows (v : SegmentVector) (o : KeyFields) : Prop where
  ordered : o.left ≤ o.right
  used : o.right ≤ v.used
  inside : o.right ≤ v.vec.length
  valid : UniConfKey.Valid (v.slice o.left o.right)
  empty : o.left = o.right → o.right = 0

/-- The key, if it is there, shows a valid key. -/
def Shown (h : KeyHeap) (k : Nat) : Prop :=
  ∀ o v, h.key k = some o → h.stores o.store = some v → Shows v o

structure Consistent (h : KeyHeap) : Prop where
  counted : h.Counted
  shows_ : ∀ k, h.Shown k

/-- A key, and the vector of its store. -/
structure Sees (h : KeyHeap) (k : Nat) (o : KeyFields) (v : SegmentVector) : Prop where
  key : h.key k = some o
  store : h.stores o.store = some v

/-- A key keeps its part, and its store what it was. -/
structure Untouched (h h' : KeyHeap) (i : Nat) : Prop where
  key : h'.key i = h.key i
  store : ∀ o, h.key i = some o → h'.stores o.store = h.stores o.store

section Values

variable {h h' h'' : KeyHeap} {k i : Nat} {o o' : KeyFields} {v v' : SegmentVector}

theorem Consistent.shows (hh : h.Consistent) (hk : Sees h k o v) : Shows v o :=
  hh.shows_ k o v hk.key hk.store

theorem Counted.alive (hh : h.Counted) (hk : Sees h k o v) : h.ref_count o.store ≠ 0 := by
  rw [← hh.there, hk.store]
  exact some_ne_none v

theorem Counted.sees (hh : h.Counted) (hk : h.key k = some o) : ∃ v, Sees h k o v := by
  obtain ⟨v, hv⟩ := hh.store_of_key hk
  exact ⟨v, hk, hv⟩

theorem Sees.value (hk : Sees h k o v) (hright : o.right ≤ v.vec.length) :
    h.value k = some (v.slice o.left o.right) := by
  rw [KeyHeap.value, hk.key]
  show (h.stores o.store).bind _ = _
  rw [hk.store]
  exact if_pos hright

theorem of_value {key : UniConfKey} (hvalue : h.value k = some key) :
    ∃ o v, Sees h k o v ∧ o.right ≤ v.vec.length ∧ key = v.slice o.left o.right := by
  obtain ⟨o, ho, hrest⟩ := bind_eq_some_iff.mp hvalue
  obtain ⟨v, hv, hif⟩ := bind_eq_some_iff.mp hrest
  by_cases hright : o.right ≤ v.vec.length
  · rw [if_pos hright] at hif
    exact ⟨o, v, ⟨ho, hv⟩, hright, (some.inj hif).symm⟩
  · rw [if_neg hright] at hif
    cases hif

theorem Sees.unique (hk : Sees h k o v) (hk' : Sees h k o' v') : o' = o ∧ v' = v := by
  obtain rfl := some.inj (hk.key.symm.trans hk'.key)
  exact ⟨rfl, some.inj (hk'.store.symm.trans hk.store)⟩

namespace Untouched

theorem refl (h : KeyHeap) (i : Nat) : Untouched h h i := ⟨rfl, fun _ _ => rfl⟩

theorem trans (h₁ : Untouched h h' i) (h₂ : Untouched h' h'' i) : Untouched h h'' i where
  key := h₂.key.trans h₁.key
  store o ho := (h₂.store o (h₁.key.trans ho)).trans (h₁.store o ho)

theorem value (hi : Untouched h h' i) : h'.value i = h.value i := by
  rw [KeyHeap.value, KeyHeap.value, hi.key]
  cases ho : h.key i with
  | none => rfl
  | some o =>
    show (h'.stores o.store).bind _ = (h.stores o.store).bind _
    rw [hi.store o ho]

theorem sees (hi : Untouched h h' i) (hk : Sees h i o v) : Sees h' i o v where
  key := hi.key.trans hk.key
  store := (hi.store o hk.key).trans hk.store

theorem shown (hi : Untouched h h' i) (hs : h.Shown i) : h'.Shown i := by
  intro o v hk hv
  have hk' : h.key i = some o := hi.key.symm.trans hk
  exact hs o v hk' ((hi.store o hk').symm.trans hv)

end Untouched

theorem Counted.untouched_release (hh : h.Counted) (hk : h.key k = some o)
    (x : Option KeyFields) (hi : i ≠ k) :
    Untouched h ((h.release o.store).setKey k x) i where
  key := (key_setKey (h := h.release o.store) hk x).2 i hi
  store := by
    intro o' ho'
    show (h.release o.store).stores o'.store = _
    rw [release_stores, if_neg]
    rintro ⟨hstore, hone⟩
    exact hh.alone hk hone ho' hi hstore

theorem Counted.untouched_redirect (hh : h.Counted) (hk : h.key k = some o) (o' : KeyFields)
    (hi : i ≠ k) : Untouched h (h.redirect k o.store o') i where
  key := (hh.untouched_release hk (some o') hi).key
  store := (hh.untouched_release hk (some o') hi).store

theorem Counted.sees_emptied (hh : h.Counted) (hk : h.key k = some o) :
    ∃ v, Sees (h.emptied k o.store) k ⟨EMPTY_store, 0, 0⟩ v :=
  (hh.emptied hk).sees (key_setKey (h := h.release o.store) hk _).1

theorem Counted.untouched_moved (hh : h.Counted) (hk : h.key k = some o)
    (hshared : h.ref_count o.store ≠ 1) (hi : i ≠ k) : Untouched h (h.moved k o v) i where
  key := (key_setKey (h := (h.release o.store).allocate v) hk _).2 i hi
  store := by
    intro o' ho'
    have hlt := hh.not_fresh ho'
    rw [moved_stores hshared, if_neg (by omega)]

theorem Counted.untouched_patch (hh : h.Counted) (hk : h.key k = some o)
    (hone : h.ref_count o.store = 1) (right : Nat) (hi : i ≠ k) :
    Untouched h (h.patch k o v right) i where
  key := (key_setKey (h := h.setSegments o.store v) hk _).2 i hi
  store := fun _ ho' => update_of_ne (hh.alone hk hone ho' hi) _ _

theorem slice_eq_lone {left : Nat} (hright : left + 1 ≤ v.vec.length) :
    v.vec[left]?.map (fun s => decide (s = [])) = some (decide (v.slice left (left + 1) = [[]])) := by
  have hlt : left < v.vec.length := hright
  have hslice : v.slice left (left + 1) = [v.vec[left]] := by
    rw [slice, drop_take, Nat.add_sub_cancel_left, take_one, head?_drop, getElem?_eq_getElem hlt]
    rfl
  rw [getElem?_eq_getElem hlt, hslice, map_some]
  simp

theorem collapse_eq (hk : Sees h k o v) (hleft : o.left ≤ o.right)
    (hright : o.left = o.right ∨ o.right ≤ v.vec.length) :
    h.collapse k = some (if v.slice o.left o.right = [[]] ∨ v.slice o.left o.right = [] then
      h.emptied k o.store else h) := by
  have htest : ∃ flag, lone v o = some flag ∧ ((flag = true ∨ o.right = o.left) ↔
      v.slice o.left o.right = [[]] ∨ v.slice o.left o.right = []) := by
    by_cases hempty : o.right = o.left
    · refine ⟨false, if_neg (by omega), iff_of_true (Or.inr hempty) (Or.inr ?_)⟩
      rw [hempty, v.slice_empty]
    · have hlen := length_slice o.left (hright.resolve_left (Ne.symm hempty))
      have hne : v.slice o.left o.right ≠ [] := by
        rw [← length_pos_iff, hlen]
        omega
      refine ⟨decide (v.slice o.left o.right = [[]]), ?_, ?_⟩
      · rw [lone]
        by_cases hone : o.right = o.left + 1
        · rw [if_pos hone]
          rw [hone] at hright ⊢
          exact slice_eq_lone (hright.resolve_left (by omega))
        · rw [if_neg hone, decide_eq_false]
          intro heq
          rw [heq, length_singleton] at hlen
          omega
      · rw [decide_eq_true_eq, or_iff_left hempty, or_iff_left hne]
  obtain ⟨flag, hlone, hiff⟩ := htest
  rw [collapse, hk.key]
  show (h.stores o.store).bind _ = _
  rw [hk.store]
  show (lone v o).bind _ = _
  rw [hlone, bind_some, apply_ite some]
  exact if_congr hiff rfl rfl

theorem Counted.collapse (hh : h.Counted) (hk : Sees h k o v) (hleft : o.left ≤ o.right)
    (hright : o.left = o.right ∨ o.right ≤ v.vec.length) :
    ∃ h', h.collapse k = some h' ∧ h'.Counted ∧
      h'.value k = some (UniConfKey.collapse (v.slice o.left o.right)) ∧
      (∀ i, i ≠ k → Untouched h h' i) ∧ (o.right ≤ v.used ∨ o.left = o.right →
        UniConfKey.Valid (UniConfKey.collapse (v.slice o.left o.right)) → h'.Shown k) := by
  refine ⟨_, collapse_eq hk hleft hright, ?_⟩
  by_cases hempty : v.slice o.left o.right = [[]] ∨ v.slice o.left o.right = []
  · rw [if_pos hempty]
    obtain ⟨w, hw⟩ := hh.sees_emptied hk.key
    have hnil : UniConfKey.collapse (v.slice o.left o.right) = [] := by
      rcases hempty with heq | heq
      · rw [heq]
        rfl
      · rw [heq]
        rfl
    have hslice : w.slice 0 0 = [] := w.slice_empty 0
    refine ⟨hh.emptied hk.key, ?_, fun i hi => hh.untouched_redirect hk.key _ hi, ?_⟩
    · rw [hw.value (Nat.zero_le _), hslice, hnil]
    · intro _ hvalid o' v' hk' hv'
      obtain ⟨rfl, rfl⟩ := hw.unique ⟨hk', hv'⟩
      rw [hnil] at hvalid
      exact ⟨Nat.zero_le _, Nat.zero_le _, Nat.zero_le _, by rw [hslice]; exact hvalid, fun _ => rfl⟩
  · rw [if_neg hempty]
    rw [not_or] at hempty
    have hne : o.left ≠ o.right := by
      intro heq
      rw [heq, v.slice_empty] at hempty
      exact hempty.2 rfl
    have hinside := hright.resolve_left hne
    have hsame : UniConfKey.collapse (v.slice o.left o.right) = v.slice o.left o.right := by
      rw [UniConfKey.collapse, if_neg hempty.1]
    refine ⟨hh, by rw [hk.value hinside, hsame], fun i _ => .refl h i, ?_⟩
    intro hused hvalid o' v' hk' hv'
    obtain ⟨rfl, rfl⟩ := hk.unique ⟨hk', hv'⟩
    rw [hsame] at hvalid
    exact ⟨hleft, hused.resolve_right hne, hinside, hvalid, fun heq => absurd heq hne⟩

theorem readRange_eq {left n : Nat} (h : left + n ≤ v.vec.length) :
    readRange v left n = some (v.slice left (left + n)) := by
  induction n generalizing left with
  | zero => rw [readRange, Nat.add_zero, v.slice_empty]
  | succ n ih =>
    have hlt : left < v.vec.length := by omega
    have hslice : v.slice left (left + (n + 1)) =
        v.vec[left] :: v.slice (left + 1) (left + 1 + n) := by
      rw [slice, slice, drop_take, drop_take, drop_eq_getElem_cons hlt]
      have hn : left + (n + 1) - left = n + 1 := by omega
      have hn' : left + 1 + n - (left + 1) = n := by omega
      rw [hn, hn', take_succ_cons]
    rw [readRange, ih (by omega), getElem?_eq_getElem hlt, hslice]
    rfl

theorem foldlM_append (v : SegmentVector) (segments : List Segment) :
    segments.foldlM append v = v.putAll v.used segments := by
  induction segments generalizing v with
  | nil => rfl
  | cons segment segments ih =>
    have happend : v.append segment = v.replace v.used segment := by
      rw [append, SegmentVector.replace]
      simp
    rw [foldlM_cons, happend, putAll_cons]
    by_cases hlt : v.used < v.vec.length
    · rw [replace_eq hlt]
      show foldlM _ _ _ = putAll _ _ _
      rw [ih]
      rw [Nat.max_eq_right (Nat.le_succ _)]
    · rw [replace_none (Nat.le_of_not_lt hlt)]
      rfl

theorem foldlM_append_ofSize {size : Nat} {segments : List Segment} (h : segments.length ≤ size) :
    segments.foldlM append (.ofSize size) =
      some ⟨segments ++ replicate (size - segments.length) [], segments.length⟩ := by
  rw [foldlM_append]
  by_cases hnil : segments = []
  · rw [hnil]
    rfl
  · have hroom : 0 + segments.length ≤ (ofSize size).vec.length := by
      rw [ofSize, length_replicate]
      omega
    show putAll _ 0 _ = _
    rw [putAll_eq hnil hroom]
    simp [ofSize]

theorem unique_eq (hk : Sees h k o v) (hleft : o.left ≤ o.right)
    (hright : o.right ≤ v.vec.length) (hshared : h.ref_count o.store ≠ 1) :
    h.unique k = some (h.moved k o ⟨v.slice o.left o.right, o.right - o.left⟩) := by
  have hlen := length_slice o.left hright
  have hread : readRange v o.left (o.right - o.left) = some (v.slice o.left o.right) := by
    have hend : o.left + (o.right - o.left) = o.right := by omega
    rw [readRange_eq (by omega), hend]
  have hfold := foldlM_append_ofSize hlen.le
  rw [hlen, Nat.sub_self, replicate_zero, append_nil] at hfold
  rw [unique, hk.key]
  show (if h.ref_count o.store = 1 then some h else _) = _
  rw [if_neg hshared, hk.store]
  show (readRange v o.left (o.right - o.left)).bind _ = _
  rw [hread]
  show bind (foldlM _ _ _) _ = _
  rw [hfold]
  rfl

end Values

end KeyHeap

end WvStreams
