import WvStreams.Lib.Keyed
import Mathlib.Data.List.Nodup
import Mathlib.Data.List.Perm.Subperm

/-!
# Linked lists in memory

A cell has a value and the address of the next cell, or none. `Seg` says which cells there are
from one address to another, and `Holds` that a memory is one list, from its first cell to its
last. A cell is put behind another, or the one behind another is taken away, by changes of two
cells (`Holds.insert`, `Holds.remove`).
-/

namespace WvStreams.Lib

open List

structure Cell (α β : Type) where
  value : β
  next : Option α
  deriving DecidableEq

abbrev Memory (α β : Type) := List (α × Cell α β)

variable {α β : Type} [DecidableEq α]

namespace Memory

def load (m : Memory α β) (a : α) : Option (Cell α β) := m.lookup a

def free (m : Memory α β) (a : α) : Memory α β := m.filter fun p => p.1 ≠ a

def store (m : Memory α β) (a : α) (c : Cell α β) : Memory α β := (a, c) :: m.free a

variable {m : Memory α β}

theorem load_free (m : Memory α β) (a b : α) :
    (m.free a).load b = if b = a then none else m.load b :=
  lookup_filter_ne b a m

theorem load_store (m : Memory α β) (a b : α) (c : Cell α β) :
    (m.store a c).load b = if b = a then some c else m.load b := by
  by_cases hb : b = a
  · rw [if_pos hb, hb]
    exact lookup_cons_self
  · have hskip : (m.store a c).load b = (m.free a).load b := by
      rw [load, store, lookup_cons, beq_false_of_ne hb]
      rfl
    rw [if_neg hb, hskip, load_free, if_neg hb]

theorem length_le {l : List α} (hl : l.Nodup) (hlive : ∀ a ∈ l, m.load a ≠ none) :
    l.length ≤ m.length := by
  have hsub : l ⊆ m.map Prod.fst := by
    intro a ha
    by_contra hnot
    exact hlive a ha (lookup_of_not_mem hnot)
  have hle := (subperm_of_subset hl hsub).length_le
  rwa [length_map] at hle

end Memory

open Memory

/-- The cells from one address to another, each with its address. -/
def Seg (m : Memory α β) : Option α → List (α × β) → Option α → Prop
  | p, [], q => p = q
  | p, x :: l, q => p = some x.1 ∧ ∃ next, m.load x.1 = some ⟨x.2, next⟩ ∧ Seg m next l q

variable {m m' : Memory α β} {p q : Option α} {l xs ys : List (α × β)} {a b : α} {v x : β}

theorem Seg.append : Seg m p (xs ++ ys) q ↔ ∃ r, Seg m p xs r ∧ Seg m r ys q := by
  induction xs generalizing p with
  | nil => exact ⟨fun h => ⟨p, rfl, h⟩, fun ⟨r, hr, h⟩ => (show p = r from hr) ▸ h⟩
  | cons y xs ih =>
    constructor
    · rintro ⟨hp, next, hload, hrest⟩
      obtain ⟨r, hxs, hys⟩ := ih.mp hrest
      exact ⟨r, ⟨hp, next, hload, hxs⟩, hys⟩
    · rintro ⟨r, ⟨hp, next, hload, hxs⟩, hys⟩
      exact ⟨hp, next, hload, ih.mpr ⟨r, hxs, hys⟩⟩

theorem Seg.congr (h : Seg m p l q) (hload : ∀ y ∈ l, m'.load y.1 = m.load y.1) : Seg m' p l q := by
  induction l generalizing p with
  | nil => exact h
  | cons y l ih =>
    obtain ⟨hp, next, hy, hrest⟩ := h
    obtain ⟨hfirst, hload⟩ := forall_mem_cons.mp hload
    exact ⟨hp, next, hfirst.trans hy, ih hrest hload⟩

theorem Seg.live (h : Seg m p l q) (ha : a ∈ l.map Prod.fst) : m.load a ≠ none := by
  induction l generalizing p with
  | nil => contradiction
  | cons y l ih =>
    obtain ⟨-, next, hy, hrest⟩ := h
    rcases mem_cons.mp ha with rfl | ha
    · rw [hy]
      exact Option.some_ne_none _
    · exact ih hrest ha

theorem Seg.store (h : Seg m p l q) (ha : a ∉ l.map Prod.fst) (c : Cell α β) :
    Seg (m.store a c) p l q := by
  refine h.congr (fun y hy => ?_)
  rw [load_store, if_neg]
  rintro rfl
  exact ha (mem_map_of_mem hy)

theorem Seg.free (h : Seg m p l q) (ha : a ∉ l.map Prod.fst) : Seg (m.free a) p l q := by
  refine h.congr (fun y hy => ?_)
  rw [load_free, if_neg]
  rintro rfl
  exact ha (mem_map_of_mem hy)

structure Holds (m : Memory α β) (head tail : α) (l : List (α × β)) : Prop where
  seg : Seg m (some head) l none
  nodup : (l.map Prod.fst).Nodup
  last : (l.map Prod.fst).getLast? = some tail
  live : ∀ a, m.load a ≠ none → a ∈ l.map Prod.fst

variable {head tail : α}

theorem Holds.split (h : Holds m head tail (xs ++ (a, v) :: ys)) :
    ∃ next, m.load a = some ⟨v, next⟩ ∧ Seg m (some head) xs (some a) ∧ Seg m next ys none ∧
      a ∉ xs.map Prod.fst ∧ a ∉ ys.map Prod.fst := by
  obtain ⟨r, hxs, rfl, next, hload, hys⟩ := Seg.append.mp h.seg
  have hnodup := h.nodup
  rw [map_append, map_cons, nodup_middle, nodup_cons, mem_append, not_or] at hnodup
  exact ⟨next, hload, hxs, hys, hnodup.1⟩

theorem Seg.eq_nil_iff (h : Seg m p l none) : p = none ↔ l = [] := by
  cases l with
  | nil => exact ⟨fun _ => rfl, fun _ => h⟩
  | cons y l => exact ⟨fun hp => absurd (h.1.symm.trans hp) (Option.some_ne_none _), nofun⟩

def Memory.insert (m : Memory α β) (a b : α) (c : Cell α β) (x : β) : Memory α β :=
  (m.store b ⟨x, c.next⟩).store a ⟨c.value, some b⟩

theorem Holds.insert (h : Holds m head tail (xs ++ (a, v) :: ys)) {c : Cell α β}
    (ha : m.load a = some c) (hb : m.load b = none) :
    Holds (m.insert a b c x) head (if c.next = none then b else tail)
      (xs ++ (a, v) :: (b, x) :: ys) := by
  obtain ⟨next, hload, hxs, hys, haxs, hays⟩ := h.split
  obtain rfl : c = ⟨v, next⟩ := Option.some.inj (ha.symm.trans hload)
  have hfresh : ∀ {l q}, Seg m q l none → b ∉ l.map Prod.fst := fun hl hmem => hl.live hmem hb
  have hball : b ∉ (xs ++ (a, v) :: ys).map Prod.fst := hfresh h.seg
  have hbxs : b ∉ xs.map Prod.fst := fun hmem => hxs.live hmem hb
  have hbys : b ∉ ys.map Prod.fst := fun hmem => hys.live hmem hb
  have hab : b ≠ a := by
    rintro rfl
    rw [hload] at hb
    contradiction
  have haddr : (xs ++ (a, v) :: (b, x) :: ys).map Prod.fst =
      xs.map Prod.fst ++ [a] ++ b :: ys.map Prod.fst := by simp
  have haddr' : (xs ++ (a, v) :: ys).map Prod.fst = xs.map Prod.fst ++ [a] ++ ys.map Prod.fst := by
    simp
  exact
    { seg := Seg.append.mpr ⟨some a, (hxs.store hbxs _).store haxs _, rfl, some b,
        (load_store _ _ _ _).trans (if_pos rfl), rfl, next,
        (load_store _ _ _ _).trans ((if_neg hab).trans ((load_store _ _ _ _).trans (if_pos rfl))),
        (hys.store hbys _).store hays _⟩
      nodup := by
        rw [haddr, nodup_middle, nodup_cons, ← haddr']
        exact ⟨hball, h.nodup⟩
      last := by
        have hlast := h.last
        rw [haddr'] at hlast
        rw [haddr, getLast?_append_cons]
        by_cases hnil : ys = []
        · rw [if_pos (hys.eq_nil_iff.mpr hnil), hnil]
          rfl
        · rw [if_neg (fun hnext => hnil (hys.eq_nil_iff.mp hnext))]
          obtain ⟨y, ys, rfl⟩ := exists_cons_of_ne_nil hnil
          rw [map_cons, getLast?_append_cons] at hlast
          exact hlast
      live := by
        intro d hd
        rw [Memory.insert, load_store, load_store] at hd
        rw [haddr, mem_append, mem_cons, or_left_comm, ← mem_append, ← haddr']
        by_cases hdb : d = b
        · exact .inl hdb
        · refine .inr ?_
          rw [if_neg hdb] at hd
          by_cases hda : d = a
          · rw [hda, haddr']
            simp
          · rw [if_neg hda] at hd
            exact h.live d hd }

def Memory.remove (m : Memory α β) (a b : α) (c c' : Cell α β) : Memory α β :=
  (m.store a { c with next := c'.next }).free b

theorem Holds.remove (h : Holds m head tail (xs ++ (a, v) :: (b, x) :: ys)) {c c' : Cell α β}
    (ha : m.load a = some c) (hb : m.load b = some c') :
    c.next = some b ∧ c'.value = x ∧
    Holds (m.remove a b c c') head (if b = tail then a else tail) (xs ++ (a, v) :: ys) := by
  obtain ⟨next, hload, hxs, ⟨rfl, next', hload', hys⟩, haxs, hays⟩ := h.split
  obtain rfl : c = ⟨v, some b⟩ := Option.some.inj (ha.symm.trans hload)
  obtain rfl : c' = ⟨x, next'⟩ := Option.some.inj (hb.symm.trans hload')
  refine ⟨rfl, rfl, ?_⟩
  have haddr : (xs ++ (a, v) :: (b, x) :: ys).map Prod.fst =
      xs.map Prod.fst ++ [a] ++ b :: ys.map Prod.fst := by simp
  have haddr' : (xs ++ (a, v) :: ys).map Prod.fst = xs.map Prod.fst ++ [a] ++ ys.map Prod.fst := by
    simp
  have hnodup := h.nodup
  rw [haddr, nodup_middle, nodup_cons, ← haddr'] at hnodup
  obtain ⟨hball, hnodup⟩ := hnodup
  have hbxs : b ∉ xs.map Prod.fst := fun hmem => hball (haddr'.symm ▸ by simp [hmem])
  have hbys : b ∉ ys.map Prod.fst := fun hmem => hball (haddr'.symm ▸ by simp [hmem])
  have hab : a ≠ b := by
    rintro rfl
    exact hays mem_cons_self
  have hays : a ∉ ys.map Prod.fst := fun hmem => hays (mem_cons_of_mem _ hmem)
  have hlast := h.last
  rw [haddr, getLast?_append_cons] at hlast
  exact
    { seg := Seg.append.mpr ⟨some a, (hxs.store haxs _).free hbxs, rfl, next',
        (load_free _ _ _).trans ((if_neg hab).trans ((load_store _ _ _ _).trans (if_pos rfl))),
        (hys.store hays _).free hbys⟩
      nodup := hnodup
      last := by
        rw [haddr']
        by_cases hnil : ys = []
        · subst hnil
          have hbt : b = tail := Option.some.inj hlast
          rw [if_pos hbt]
          simp
        · obtain ⟨y, ys, rfl⟩ := exists_cons_of_ne_nil hnil
          have hmem : tail ∈ (y :: ys).map Prod.fst :=
            mem_of_getLast? (getLast?_cons_cons.symm.trans hlast)
          have hbt : b ≠ tail := fun hbt => hbys (hbt ▸ hmem)
          rw [if_neg hbt, map_cons, getLast?_append_cons]
          exact getLast?_cons_cons.symm.trans hlast
      live := by
        intro d hd
        rw [Memory.remove, load_free, load_store] at hd
        by_cases hdb : d = b
        · rw [if_pos hdb] at hd
          contradiction
        · rw [if_neg hdb] at hd
          by_cases hda : d = a
          · rw [hda, haddr']
            simp
          · rw [if_neg hda] at hd
            have hmem := h.live d hd
            rw [haddr, mem_append, mem_cons, or_left_comm, ← mem_append, ← haddr'] at hmem
            exact hmem.resolve_left hdb }

end WvStreams.Lib
