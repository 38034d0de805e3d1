import WvStreams.Lib.LinkedList
import WvStreams.Lib.Machine
import Mathlib.Data.List.InsertIdx

/-!
# `WvList`

The links are cells in memory, behind a first one in the list itself, and `tail` is kept by
insertion, removal and reversal each in its own way. `Repr` says which elements are in the list.
In every run of calls that give links of the list the list is the sequence that it should be, and
what is destroyed are the elements that are removed and owned (`run_refines`). A loop that goes
forward and unlinks what it likes visits each element once (`forEach_spec`).
-/

namespace WvStreams

open Lib List Option Memory

/-- What a link holds: an element, null or not, that the list owns or not. -/
structure Element (δ : Type) where
  data : Option δ
  autofree : Bool
  deriving DecidableEq

/-- The links are in memory, with `head` at the address 0. -/
structure WvList (δ : Type) where
  heap : Memory Nat (Element δ)
  tail : Nat

namespace WvList

variable {δ : Type}

/-- What `head` holds. -/
def headElement : Element δ := ⟨none, false⟩

def empty : WvList δ := ⟨[(0, ⟨headElement, none⟩)], 0⟩

/-! ## The functions -/

/-- A new link at the address `addr`. -/
def add_after (l : WvList δ) (after : Nat) (x : Element δ) (addr : Nat) : Option (WvList δ) :=
  (l.heap.load after).map fun c =>
    { heap := l.heap.insert after addr c x
      tail := if c.next = none then addr else l.tail }

def append (l : WvList δ) (x : Element δ) (addr : Nat) : Option (WvList δ) :=
  l.add_after l.tail x addr

def prepend (l : WvList δ) (x : Element δ) (addr : Nat) : Option (WvList δ) :=
  l.add_after 0 x addr

def unlink_after (l : WvList δ) (after : Nat) (destroy : Bool) : Option (WvList δ × List δ) :=
  (l.heap.load after).bind fun c =>
    match c.next with
    | none => some (l, [])
    | some next => (l.heap.load next).map fun c' =>
      let obj := if destroy && c'.value.autofree then c'.value.data else none
      let tail := if next = l.tail then after else l.tail
      (⟨l.heap.remove after next c c', tail⟩, obj.toList)

/-- The loop of `zap`, for some rounds. None if it goes on. -/
def zapLoop (destroy : Bool) : Nat → WvList δ → Option (WvList δ × List δ)
  | 0, _ => none
  | n + 1, l => (l.heap.load 0).bind fun c =>
    if c.next = none then some (l, [])
    else (l.unlink_after 0 destroy).bind fun r =>
      (zapLoop destroy n r.1).map fun r' => (r'.1, r.2 ++ r'.2)

/-- A loop that makes more rounds than there are links does not end. -/
def zap (l : WvList δ) (destroy : Bool) : Option (WvList δ × List δ) :=
  zapLoop destroy l.heap.length l

structure Iter where
  link : Option Nat := none
  prev : Option Nat := none

namespace Iter

def rewind : Iter := ⟨some 0, none⟩

def next (l : WvList δ) (it : Iter) : Option Iter :=
  it.link.bind fun a => (l.heap.load a).map fun c => ⟨c.next, some a⟩

def findLoop [DecidableEq δ] (l : WvList δ) (data : Option δ) : Nat → Iter → Option Iter
  | 0, _ => none
  | n + 1, it => (it.next l).bind fun it =>
    match it.link with
    | none => some it
    | some a => (l.heap.load a).bind fun c =>
      if c.value.data = data then some it else findLoop l data n it

def find [DecidableEq δ] (l : WvList δ) (data : Option δ) : Option Iter :=
  findLoop l data l.heap.length rewind

/-- After an iterator that has no `prev` this takes null for a link. -/
def unlink (l : WvList δ) (it : Iter) (destroy : Bool) : Option (WvList δ × Iter × List δ) :=
  it.prev.bind fun p => (l.unlink_after p destroy).bind fun r =>
    (r.1.heap.load p).map fun c => (r.1, ⟨c.next, some p⟩, r.2)

def xunlink (l : WvList δ) (it : Iter) (destroy : Bool) : Option (WvList δ × Iter × List δ) :=
  match it.prev with
  | none => some (l, ⟨none, none⟩, [])
  | some p => (l.unlink_after p destroy).map fun r => (r.1, ⟨some p, some p⟩, r.2)

end Iter

def unlinkLoop [DecidableEq δ] (data : Option δ) : Nat → WvList δ → Option (WvList δ × List δ)
  | 0, _ => none
  | n + 1, l => (Iter.find l data).bind fun i =>
    match i.link with
    | none => some (l, [])
    | some _ => (i.unlink l true).bind fun r =>
      (unlinkLoop data n r.1).map fun r' => (r'.1, r.2.2 ++ r'.2)

def unlink [DecidableEq δ] (l : WvList δ) (data : Option δ) : Option (WvList δ × List δ) :=
  unlinkLoop data l.heap.length l

def unlink_first (l : WvList δ) : Option (WvList δ × List δ) :=
  (l.heap.load 0).bind fun c =>
    if c.next = none then some (l, [])
    else (Iter.rewind.next l).bind fun i => (i.unlink l true).map fun r => (r.1, r.2.2)

/-- The loop of `reverse`, which ends with the last link. -/
def reverseLoop : Nat → Memory Nat (Element δ) → Nat → Nat → Option (Memory Nat (Element δ) × Nat)
  | 0, _, _, _ => none
  | n + 1, m, prev, curr => (m.load curr).bind fun c =>
    let m := m.store curr { c with next := some prev }
    match c.next with
    | none => some (m, curr)
    | some next => reverseLoop n m curr next

def reverse (l : WvList δ) : Option (WvList δ) :=
  (l.heap.load 0).bind fun c =>
    match c.next with
    | none => some l
    | some prev => (l.heap.load prev).bind fun c' =>
      match c'.next with
      | none => some l
      | some curr => (reverseLoop l.heap.length l.heap prev curr).bind fun r =>
        (r.1.load 0).bind fun c => c.next.bind fun tail => (r.1.load tail).bind fun c' =>
          let m := r.1.store tail { c' with next := none }
          (m.load 0).map fun c => ⟨m.store 0 { c with next := some r.2 }, tail⟩

/-- A loop of a caller that goes forward and calls `xunlink` for some elements. It visits the
elements that are returned first. -/
def visitLoop (choose : Nat × Element δ → Bool) (destroy : Bool) :
    Nat → WvList δ → Iter → Option (List (Nat × Element δ) × WvList δ × List δ)
  | 0, _, _ => none
  | n + 1, l, it => (it.next l).bind fun it =>
    match it.link with
    | none => some ([], l, [])
    | some a => (l.heap.load a).bind fun c =>
      if choose (a, c.value) then
        (it.xunlink l destroy).bind fun r =>
          (visitLoop choose destroy n r.1 r.2.1).map fun r' =>
            ((a, c.value) :: r'.1, r'.2.1, r.2.2 ++ r'.2.2)
      else (visitLoop choose destroy n l it).map fun r' => ((a, c.value) :: r'.1, r'.2)

def forEach (l : WvList δ) (choose : Nat × Element δ → Bool) (destroy : Bool) :
    Option (List (Nat × Element δ) × WvList δ × List δ) :=
  visitLoop choose destroy l.heap.length l .rewind

/-! ## The elements of a list -/

def Has (l : WvList δ) (links : List (Nat × Element δ)) : Prop := Holds l.heap 0 l.tail links

/-- The list holds these elements, each in the link at an address. -/
def Repr (l : WvList δ) (elems : List (Nat × Element δ)) : Prop := l.Has ((0, headElement) :: elems)

def released (destroy : Bool) (elems : List (Nat × Element δ)) : List δ :=
  elems.flatMap fun x => (if destroy && x.2.autofree then x.2.data else none).toList

def place (elems : List (Nat × Element δ)) (after : Nat) : Nat :=
  (0 :: elems.map Prod.fst).idxOf after

theorem repr_empty : Repr (empty : WvList δ) [] where
  seg := ⟨rfl, none, rfl, rfl⟩
  nodup := nodup_singleton 0
  last := rfl
  live := by
    intro a ha
    by_contra hnot
    exact ha (lookup_of_not_mem hnot)

variable {l : WvList δ} {links elems xs ys : List (Nat × Element δ)} {a b : Nat}
  {v x : Element δ}

theorem Has.length_le (h : l.Has links) : links.length ≤ l.heap.length := by
  have hle := Memory.length_le h.nodup (fun a ha => h.seg.live ha)
  rwa [length_map] at hle

theorem Repr.exists_split (h : Repr l elems) (ha : l.heap.load a ≠ none) :
    ∃ xs v ys, (0, headElement) :: elems = xs ++ (a, v) :: ys := by
  obtain ⟨⟨a, v⟩, hmem, rfl⟩ := mem_map.mp (h.live a ha)
  obtain ⟨xs, ys, hsplit⟩ := append_of_mem hmem
  exact ⟨xs, v, ys, hsplit⟩

theorem place_eq (h : Repr l elems) (hsplit : (0, headElement) :: elems = xs ++ (a, v) :: ys) :
    place elems a = xs.length := by
  have haddr : 0 :: elems.map Prod.fst = xs.map Prod.fst ++ a :: ys.map Prod.fst := by
    have hmap := congrArg (map Prod.fst) hsplit
    rwa [map_append] at hmap
  have hhas : l.Has (xs ++ (a, v) :: ys) := hsplit ▸ h
  obtain ⟨-, -, -, -, hxs, -⟩ := hhas.split
  rw [place, haddr, idxOf_append_of_notMem hxs, idxOf_cons_self, length_map]
  rfl

theorem insertIdx_split (hsplit : (0, headElement) :: elems = xs ++ (a, v) :: ys)
    (y : Nat × Element δ) :
    (0, headElement) :: elems.insertIdx xs.length y = xs ++ (a, v) :: y :: ys := by
  have hinsert : ∀ zs : List (Nat × Element δ),
      (zs ++ (a, v) :: ys).insertIdx (zs.length + 1) y = zs ++ (a, v) :: y :: ys := by
    intro zs
    induction zs with
    | nil => rfl
    | cons z zs ih =>
      rw [cons_append, length_cons, insertIdx_succ_cons, ih]
      rfl
  rw [← hinsert xs, ← hsplit]
  exact insertIdx_succ_cons.symm

theorem eraseIdx_split (hsplit : (0, headElement) :: elems = xs ++ (a, v) :: ys) :
    (0, headElement) :: elems.eraseIdx xs.length = xs ++ (a, v) :: ys.tail ∧
      elems[xs.length]? = ys.head? := by
  constructor
  · rw [← eraseIdx_cons_succ, hsplit, eraseIdx_append_of_length_le (Nat.le_add_right _ 1),
      Nat.add_sub_cancel_left]
    cases ys with
    | nil => rfl
    | cons y ys => rfl
  · have hget : ((0, headElement) :: elems)[xs.length + 1]? = elems[xs.length]? :=
      getElem?_cons_succ
    rw [← hget, hsplit, getElem?_append_right (Nat.le_add_right _ 1), Nat.add_sub_cancel_left]
    cases ys with
    | nil => rfl
    | cons y ys => rfl

/-! ## Insertion and removal -/

theorem add_after_spec (h : Repr l elems) (ha : l.heap.load a ≠ none)
    (hb : l.heap.load b = none) (x : Element δ) :
    ∃ l', l.add_after a x b = some l' ∧ Repr l' (elems.insertIdx (place elems a) (b, x)) := by
  obtain ⟨xs, v, ys, hsplit⟩ := h.exists_split ha
  obtain ⟨c, hc⟩ := ne_none_iff_exists'.mp ha
  have hhas : l.Has (xs ++ (a, v) :: ys) := hsplit ▸ h
  refine ⟨_, by rw [add_after, hc, map_some], ?_⟩
  rw [place_eq h hsplit, Repr, insertIdx_split hsplit]
  exact hhas.insert hc hb

theorem Repr.tail_live (h : Repr l elems) : l.heap.load l.tail ≠ none :=
  h.seg.live (mem_of_getLast? h.last)

theorem Repr.place_tail (h : Repr l elems) : place elems l.tail = elems.length := by
  obtain ⟨xs, v, ys, hsplit⟩ := h.exists_split h.tail_live
  have hhas : l.Has (xs ++ (l.tail, v) :: ys) := hsplit ▸ h
  obtain ⟨-, -, -, -, -, hys⟩ := hhas.split
  have hlast := hhas.last
  rw [map_append, map_cons, getLast?_append_cons] at hlast
  have hnil : ys = [] := by
    by_contra hne
    obtain ⟨y, ys, rfl⟩ := exists_cons_of_ne_nil hne
    rw [map_cons, getLast?_cons_cons] at hlast
    exact hys (mem_of_getLast? hlast)
  rw [place_eq h hsplit]
  have hlength := congrArg length hsplit
  rw [hnil, length_append, length_cons] at hlength
  exact (Nat.succ.inj hlength).symm

theorem Has.unlink_after (h : l.Has (xs ++ (a, v) :: (b, x) :: ys)) (destroy : Bool) :
    ∃ l', l.unlink_after a destroy = some (l', released destroy [(b, x)]) ∧
      l'.Has (xs ++ (a, v) :: ys) := by
  obtain ⟨-, hload, -, ⟨rfl, next, hload', -⟩, -, -⟩ := h.split
  obtain ⟨-, -, hholds⟩ := h.remove hload hload'
  refine ⟨⟨l.heap.remove a b ⟨v, some b⟩ ⟨x, next⟩, if b = l.tail then a else l.tail⟩, ?_, hholds⟩
  rw [WvList.unlink_after, hload, bind_some]
  dsimp only
  rw [hload', map_some, released, flatMap_singleton]

theorem unlink_after_spec (h : Repr l elems) (ha : l.heap.load a ≠ none) (destroy : Bool) :
    ∃ l', l.unlink_after a destroy =
        some (l', released destroy elems[place elems a]?.toList) ∧
      Repr l' (elems.eraseIdx (place elems a)) := by
  obtain ⟨xs, v, ys, hsplit⟩ := h.exists_split ha
  obtain ⟨herase, hget⟩ := eraseIdx_split hsplit
  have hhas : l.Has (xs ++ (a, v) :: ys) := hsplit ▸ h
  unfold Repr
  rw [place_eq h hsplit, herase, hget]
  cases ys with
  | nil =>
    obtain ⟨-, hload, -, rfl, -, -⟩ := hhas.split
    refine ⟨l, ?_, hhas⟩
    rw [unlink_after, hload]
    rfl
  | cons y ys => exact hhas.unlink_after destroy

theorem released_append (destroy : Bool) (xs ys : List (Nat × Element δ)) :
    released destroy (xs ++ ys) = released destroy xs ++ released destroy ys :=
  flatMap_append

theorem released_cons (destroy : Bool) (y : Nat × Element δ) (ys : List (Nat × Element δ)) :
    released destroy (y :: ys) = released destroy [y] ++ released destroy ys :=
  released_append destroy [y] ys

theorem zapLoop_spec (h : Repr l elems) (destroy : Bool) {n : Nat} (hn : elems.length < n) :
    ∃ l', zapLoop destroy n l = some (l', released destroy elems) ∧ Repr l' [] := by
  induction n generalizing l elems with
  | zero => exact absurd hn (Nat.not_lt_zero _)
  | succ n ih =>
    cases elems with
    | nil =>
      obtain ⟨-, next, hload, rfl⟩ := h.seg
      refine ⟨l, ?_, h⟩
      rw [zapLoop, hload]
      rfl
    | cons y elems =>
      obtain ⟨-, next, hload, rfl, -⟩ := h.seg
      obtain ⟨l', hunlink, hhas⟩ := (show l.Has ([] ++ _ :: _ :: _) from h).unlink_after destroy
      obtain ⟨l'', hzap, hempty⟩ := ih hhas (Nat.lt_of_succ_lt_succ hn)
      refine ⟨l'', ?_, hempty⟩
      rw [zapLoop, hload, bind_some, if_neg (some_ne_none _), hunlink,
        bind_some, hzap, map_some, released_cons destroy y elems]

theorem zap_spec (h : Repr l elems) (destroy : Bool) :
    ∃ l', l.zap destroy = some (l', released destroy elems) ∧ Repr l' [] :=
  zapLoop_spec h destroy (Nat.lt_of_succ_le (Has.length_le h))

/-! ## Iterators -/

theorem Has.next (h : l.Has (xs ++ (a, v) :: ys)) (it : Iter) (hlink : it.link = some a) :
    it.next l = some ⟨ys.head?.map Prod.fst, some a⟩ := by
  obtain ⟨next, hload, -, hys, -, -⟩ := h.split
  rw [Iter.next, hlink, bind_some, hload, map_some]
  congr 2
  cases ys with
  | nil => exact hys
  | cons y ys => exact hys.1

theorem Has.load (h : l.Has (xs ++ (a, v) :: ys)) : ∃ c, l.heap.load a = some c ∧ c.value = v := by
  obtain ⟨next, hload, -⟩ := h.split
  exact ⟨_, hload, rfl⟩

theorem Has.iter_unlink (h : l.Has (xs ++ (a, v) :: (b, x) :: ys)) (it : Iter)
    (hprev : it.prev = some a) (destroy : Bool) :
    ∃ l', it.unlink l destroy = some (l', ⟨ys.head?.map Prod.fst, some a⟩,
      released destroy [(b, x)]) ∧ l'.Has (xs ++ (a, v) :: ys) := by
  obtain ⟨l', hunlink, hhas⟩ := h.unlink_after destroy
  obtain ⟨next, hload, -, hys, -, -⟩ := hhas.split
  refine ⟨l', ?_, hhas⟩
  rw [Iter.unlink, hprev, bind_some, hunlink, bind_some, hload, map_some]
  congr 4
  cases ys with
  | nil => exact hys
  | cons y ys => exact hys.1

theorem Has.iter_xunlink (h : l.Has (xs ++ (a, v) :: (b, x) :: ys)) (it : Iter)
    (hprev : it.prev = some a) (destroy : Bool) :
    ∃ l', it.xunlink l destroy = some (l', ⟨some a, some a⟩, released destroy [(b, x)]) ∧
      l'.Has (xs ++ (a, v) :: ys) := by
  obtain ⟨l', hunlink, hhas⟩ := h.unlink_after destroy
  refine ⟨l', ?_, hhas⟩
  rw [Iter.xunlink, hprev]
  dsimp only
  rw [hunlink, map_some]

theorem visitLoop_spec (choose : Nat × Element δ → Bool) (destroy : Bool) {n : Nat}
    (hn : ys.length < n) (h : l.Has (xs ++ (a, v) :: ys)) (it : Iter) (hlink : it.link = some a) :
    ∃ l', visitLoop choose destroy n l it = some (ys, l', released destroy (ys.filter choose)) ∧
      l'.Has (xs ++ (a, v) :: ys.filter fun y => !choose y) := by
  induction n generalizing l xs a v ys it with
  | zero => exact absurd hn (Nat.not_lt_zero _)
  | succ n ih =>
    have hnext := h.next it hlink
    cases ys with
    | nil =>
      refine ⟨l, ?_, h⟩
      rw [visitLoop, hnext]
      rfl
    | cons y ys =>
      have hn : ys.length < n := Nat.lt_of_succ_lt_succ hn
      have hmove : xs ++ (a, v) :: y :: ys = xs ++ [(a, v)] ++ (y.1, y.2) :: ys := by simp
      obtain ⟨c, hload, hvalue⟩ := Has.load (hmove ▸ h)
      have hvisit : (y.1, c.value) = y := by rw [hvalue]
      rw [visitLoop, hnext, bind_some]
      dsimp only [head?_cons, map_some]
      rw [hload, bind_some, hvisit]
      by_cases hy : choose y = true
      · obtain ⟨l', hunlink, hhas⟩ := h.iter_xunlink ⟨some y.1, some a⟩ rfl destroy
        obtain ⟨l'', hrest, hlast⟩ := ih hn hhas ⟨some a, some a⟩ rfl
        refine ⟨l'', ?_, ?_⟩
        · rw [if_pos hy, hunlink, bind_some, hrest, map_some,
            filter_cons_of_pos hy, released_cons destroy y (ys.filter choose)]
        · rw [filter_cons_of_neg (by simpa using hy)]
          exact hlast
      · obtain ⟨l'', hrest, hlast⟩ := ih hn (hmove ▸ h) ⟨some y.1, some a⟩ rfl
        refine ⟨l'', ?_, ?_⟩
        · rw [if_neg hy, hrest, map_some, filter_cons_of_neg hy]
        · rw [filter_cons_of_pos (by simpa using hy)]
          simpa using hlast

theorem forEach_spec (h : Repr l elems) (choose : Nat × Element δ → Bool) (destroy : Bool) :
    ∃ l', l.forEach choose destroy = some (elems, l', released destroy (elems.filter choose)) ∧
      Repr l' (elems.filter fun y => !choose y) :=
  visitLoop_spec choose destroy (Nat.lt_of_succ_le (Has.length_le h)) (show l.Has ([] ++ _ :: _) from h) .rewind rfl

/-! ## Unlinking by data -/

section Find

variable [DecidableEq δ] (data : Option δ)

theorem findLoop_spec {n : Nat} (hn : ys.length < n) (h : l.Has (xs ++ (a, v) :: ys)) (it : Iter)
    (hlink : it.link = some a) :
    ∃ it', Iter.findLoop l data n it = some it' ∧ (it'.link = none ∧ (∀ y ∈ ys, y.2.data ≠ data) ∨
        ∃ zs y ws xs' p w, ys = zs ++ y :: ws ∧ (∀ z ∈ zs, z.2.data ≠ data) ∧ y.2.data = data ∧
          it' = ⟨some y.1, some p⟩ ∧ xs ++ (a, v) :: zs = xs' ++ [(p, w)]) := by
  induction n generalizing xs a v ys it with
  | zero => exact absurd hn (Nat.not_lt_zero _)
  | succ n ih =>
    rw [Iter.findLoop, h.next it hlink, bind_some]
    cases ys with
    | nil => exact ⟨_, rfl, .inl ⟨rfl, forall_mem_nil _⟩⟩
    | cons y ys =>
      have hmove : xs ++ (a, v) :: y :: ys = xs ++ [(a, v)] ++ (y.1, y.2) :: ys := by simp
      obtain ⟨c, hload, hvalue⟩ := Has.load (hmove ▸ h)
      dsimp only [head?_cons, map_some]
      rw [hload, bind_some, hvalue]
      by_cases hy : y.2.data = data
      · rw [if_pos hy]
        exact ⟨_, rfl, .inr ⟨[], y, ys, xs, a, v, rfl, forall_mem_nil _, hy, rfl, rfl⟩⟩
      · rw [if_neg hy]
        obtain ⟨it', hfind, hcases⟩ :=
          ih (Nat.lt_of_succ_lt_succ hn) (hmove ▸ h) ⟨some y.1, some a⟩ rfl
        refine ⟨it', hfind, ?_⟩
        rcases hcases with ⟨hnone, hall⟩ | ⟨zs, z, ws, xs', p, w, rfl, hall, hz, rfl, hsplit⟩
        · exact .inl ⟨hnone, forall_mem_cons.mpr ⟨hy, hall⟩⟩
        · refine .inr ⟨y :: zs, z, ws, xs', p, w, rfl, forall_mem_cons.mpr ⟨hy, hall⟩, hz, rfl, ?_⟩
          rw [← hsplit, append_assoc]
          rfl

theorem unlinkLoop_spec {n : Nat} (h : Repr l elems)
    (hn : (elems.filter fun y => y.2.data = data).length < n) :
    ∃ l', unlinkLoop data n l =
        some (l', released true (elems.filter fun y => y.2.data = data)) ∧
      Repr l' (elems.filter fun y => y.2.data ≠ data) := by
  induction n generalizing l elems with
  | zero => exact absurd hn (Nat.not_lt_zero _)
  | succ n ih =>
    obtain ⟨it, hfind, hcases⟩ := findLoop_spec data
      (Nat.lt_of_succ_le (Has.length_le h)) (show l.Has ([] ++ _ :: _) from h) .rewind rfl
    rw [unlinkLoop, Iter.find, hfind, bind_some]
    rcases hcases with ⟨hnone, hall⟩ | ⟨zs, y, ws, xs', p, w, rfl, hall, hy, rfl, hsplit⟩
    · have hmatch : (elems.filter fun y => y.2.data = data) = [] :=
        filter_eq_nil_iff.mpr (fun y hy => by simpa using hall y hy)
      have hrest : (elems.filter fun y => y.2.data ≠ data) = elems :=
        filter_eq_self.mpr (fun y hy => by simpa using hall y hy)
      rw [hnone, hmatch, hrest]
      exact ⟨l, rfl, h⟩
    · have hmatch : ((zs ++ y :: ws).filter fun y => y.2.data = data) =
          y :: (zs ++ ws).filter fun y => y.2.data = data := by
        have hzs : (zs.filter fun y => y.2.data = data) = [] :=
          filter_eq_nil_iff.mpr (fun z hz => by simpa using hall z hz)
        rw [filter_append, filter_append, hzs, filter_cons_of_pos (by simpa using hy)]
        rfl
      have hrest : ((zs ++ y :: ws).filter fun y => y.2.data ≠ data) =
          (zs ++ ws).filter fun y => y.2.data ≠ data := by
        rw [filter_append, filter_append, filter_cons_of_neg (by simpa using hy)]
      have hfound : l.Has (xs' ++ (p, w) :: (y.1, y.2) :: ws) := by
        have hlinks : (0, headElement) :: (zs ++ y :: ws) = xs' ++ (p, w) :: (y.1, y.2) :: ws :=
          (congrArg (· ++ y :: ws) hsplit).trans (append_assoc _ _ _)
        exact hlinks ▸ h
      obtain ⟨l', hunlink, hhas⟩ := hfound.iter_unlink ⟨some y.1, some p⟩ rfl true
      have hleft : (0, headElement) :: (zs ++ ws) = xs' ++ (p, w) :: ws :=
        (congrArg (· ++ ws) hsplit).trans (append_assoc _ _ _)
      have hrepr : Repr l' (zs ++ ws) := by
        rw [Repr, hleft]
        exact hhas
      rw [hmatch] at hn ⊢
      obtain ⟨l'', hloop, hlast⟩ := ih hrepr (Nat.lt_of_succ_lt_succ hn)
      refine ⟨l'', ?_, hrest ▸ hlast⟩
      rw [hunlink, bind_some, hloop, map_some,
        released_cons true y ((zs ++ ws).filter fun y => y.2.data = data)]

theorem unlink_spec (h : Repr l elems) (data : Option δ) :
    ∃ l', l.unlink data = some (l', released true (elems.filter fun y => y.2.data = data)) ∧
      Repr l' (elems.filter fun y => y.2.data ≠ data) :=
  unlinkLoop_spec data h ((Nat.lt_succ_of_le (length_filter_le _ _)).trans_le (Has.length_le h))

end Find

theorem unlink_first_spec (h : Repr l elems) :
    ∃ l', l.unlink_first = some (l', released true elems[0]?.toList) ∧
      Repr l' (elems.eraseIdx 0) := by
  cases elems with
  | nil =>
    obtain ⟨-, next, hload, rfl⟩ := h.seg
    refine ⟨l, ?_, h⟩
    rw [unlink_first, hload]
    rfl
  | cons y elems =>
    obtain ⟨-, next, hload, rfl, -⟩ := h.seg
    have hlinks : l.Has ([] ++ (0, headElement) :: (y.1, y.2) :: elems) := h
    have hnext := hlinks.next .rewind rfl
    obtain ⟨l', hunlink, hhas⟩ :=
      hlinks.iter_unlink ⟨some y.1, some 0⟩ rfl true
    refine ⟨l', ?_, hhas⟩
    rw [unlink_first, hload, bind_some, if_neg (some_ne_none _), hnext, bind_some]
    dsimp only [head?_cons, map_some]
    rw [hunlink]
    rfl

/-! ## Reversal -/

theorem reverseLoop_spec {m : Memory Nat (Element δ)} {prev curr : Nat} {x : Element δ}
    {done rest : List (Nat × Element δ)} {q : Option Nat} {n : Nat} (hn : rest.length < n)
    (hdone : Seg m (some prev) done q) (hrest : Seg m (some curr) ((curr, x) :: rest) none)
    (hnodup : (((curr, x) :: rest ++ done).map Prod.fst).Nodup) :
    ∃ m' last, reverseLoop n m prev curr = some (m', last) ∧
      Seg m' (some last) (rest.reverse ++ (curr, x) :: done) q ∧
      ∀ a ∉ ((curr, x) :: rest).map Prod.fst, m'.load a = m.load a := by
  induction n generalizing m prev curr x done rest with
  | zero => exact absurd hn (Nat.not_lt_zero _)
  | succ n ih =>
    obtain ⟨-, next, hload, hrest⟩ := hrest
    rw [cons_append, map_cons, nodup_cons] at hnodup
    obtain ⟨hcurr, hnodup⟩ := hnodup
    rw [map_append, mem_append, not_or] at hcurr
    have hturned : Seg (m.store curr ⟨x, some prev⟩) (some curr) ((curr, x) :: done) q :=
      ⟨rfl, some prev, (load_store _ _ _ _).trans (if_pos rfl), hdone.store hcurr.2 _⟩
    have hothers : ∀ a, a ≠ curr → (m.store curr ⟨x, some prev⟩).load a = m.load a :=
      fun a ha => (load_store _ _ _ _).trans (if_neg ha)
    rw [reverseLoop, hload, bind_some]
    cases rest with
    | nil =>
      obtain rfl : next = none := hrest
      exact ⟨_, curr, rfl, hturned, fun a ha => hothers a (fun h => ha (h ▸ mem_cons_self))⟩
    | cons y rest =>
      obtain rfl : next = some y.1 := hrest.1
      have hswap : (((y.1, y.2) :: rest ++ (curr, x) :: done).map Prod.fst).Nodup := by
        rw [map_append, map_cons (l := done), nodup_middle, nodup_cons,
          mem_append, not_or, ← map_append]
        exact ⟨hcurr, hnodup⟩
      obtain ⟨m', last, hloop, hseg, hsame⟩ := ih (Nat.lt_of_succ_lt_succ hn) hturned
        (hrest.store hcurr.1 ⟨x, some prev⟩) hswap
      refine ⟨m', last, hloop, ?_, fun a ha => ?_⟩
      · rw [reverse_cons, append_assoc]
        exact hseg
      · obtain ⟨hac, hary⟩ := not_or.mp (fun hor => ha (mem_cons.mpr hor))
        exact (hsame a hary).trans (hothers a hac)

theorem reverse_spec (h : Repr l elems) : ∃ l', l.reverse = some l' ∧ Repr l' elems.reverse := by
  have hlen := Has.length_le h
  obtain ⟨hseg, hnodup, hlast, hlive⟩ := h
  obtain ⟨-, first, hhead, hseg⟩ := hseg
  match elems, hseg with
  | [], hfirst =>
    obtain rfl : first = none := hfirst
    refine ⟨l, ?_, ⟨⟨rfl, none, hhead, rfl⟩, hnodup, hlast, hlive⟩⟩
    rw [reverse, hhead]
    rfl
  | [y], ⟨hfirst, second, hy, hsecond⟩ =>
    obtain rfl : first = some y.1 := hfirst
    obtain rfl : second = none := hsecond
    refine ⟨l, ?_, ⟨⟨rfl, some y.1, hhead, rfl, none, hy, rfl⟩, hnodup, hlast, hlive⟩⟩
    rw [reverse, hhead, bind_some]
    dsimp only
    rw [hy]
    rfl
  | y :: z :: rest, ⟨hfirst, second, hy, hsecond⟩ =>
    obtain rfl : first = some y.1 := hfirst
    obtain rfl : second = some z.1 := hsecond.1
    obtain ⟨hzero, hlinks⟩ := nodup_cons.mp hnodup
    have hturn : (((z.1, z.2) :: rest ++ [y]).map Prod.fst).Nodup := by
      refine (Perm.nodup_iff ?_).mp hlinks
      exact (perm_append_singleton y (z :: rest)).symm.map Prod.fst
    have hdone : Seg l.heap (some y.1) [y] (some z.1) := ⟨rfl, some z.1, hy, rfl⟩
    have hrest : Seg l.heap (some z.1) ((z.1, z.2) :: rest) none := hsecond
    have hn : rest.length < l.heap.length := by
      rw [length_cons, length_cons, length_cons] at hlen
      omega
    obtain ⟨m, last, hloop, hturned, hsame⟩ := reverseLoop_spec hn hdone hrest hturn
    have hsplit : (y :: z :: rest).reverse = rest.reverse ++ [z] ++ [y] := by
      rw [reverse_cons, reverse_cons]
    have hfront : ∀ a, a ∈ (rest.reverse ++ [z]).map Prod.fst → a ∈ (z :: rest).map Prod.fst := by
      intro a ha
      simpa [or_comm] using ha
    have hnoty : y.1 ∉ (rest.reverse ++ [z]).map Prod.fst := fun hmem =>
      (nodup_cons.mp hlinks).1 (hfront _ hmem)
    have hnothead : 0 ∉ (z :: rest).map Prod.fst := fun hmem => hzero (mem_cons_of_mem _ hmem)
    have hy0 : (0 : Nat) ≠ y.1 := fun h => hzero (h ▸ mem_cons_self)
    have hhead' : m.load 0 = some ⟨headElement, some y.1⟩ := (hsame 0 hnothead).trans hhead
    have hturned : Seg m (some last) (rest.reverse ++ [z] ++ [y]) (some z.1) := by
      rw [append_assoc]
      exact hturned
    obtain ⟨_, hseg, rfl, _, hycell, -⟩ := Seg.append.mp hturned
    refine ⟨⟨(m.store y.1 ⟨y.2, none⟩).store 0 ⟨headElement, some last⟩, y.1⟩, ?_, ?_⟩
    · rw [reverse, hhead, bind_some]
      dsimp only
      rw [hy, bind_some]
      dsimp only
      rw [hloop, bind_some]
      rw [hhead', bind_some, bind_some, hycell, bind_some, load_store,
        if_neg hy0, hhead', map_some]
    have hperm : (0 :: (rest.reverse ++ [z] ++ [y]).map Prod.fst).Perm
        ((0, headElement) :: y :: z :: rest |>.map Prod.fst) := by
      rw [← hsplit]
      exact ((reverse_perm _).map Prod.fst).cons 0
    rw [hsplit]
    exact
      { seg := ⟨rfl, some last, (load_store _ _ _ _).trans (if_pos rfl),
          Seg.append.mpr ⟨some y.1,
            (hseg.store hnoty _).store (fun hmem => hnothead (hfront 0 hmem)) _, rfl, none,
            (load_store _ _ _ _).trans ((if_neg hy0.symm).trans
              ((load_store _ _ _ _).trans (if_pos rfl))), rfl⟩⟩
        nodup := hperm.nodup_iff.mpr hnodup
        last := by
          rw [map_cons, map_append, ← cons_append]
          exact getLast?_concat
        live := by
          intro a ha
          rw [load_store, load_store] at ha
          refine hperm.mem_iff.mpr ?_
          by_cases ha0 : a = 0
          · exact ha0 ▸ mem_cons_self
          · by_cases hay : a = y.1
            · exact hay ▸ mem_cons_of_mem _ mem_cons_self
            · rw [if_neg ha0, if_neg hay] at ha
              by_cases hmem : a ∈ (z :: rest).map Prod.fst
              · exact mem_cons_of_mem _ (mem_cons_of_mem _ hmem)
              · rw [hsame a hmem] at ha
                exact hlive a ha }

/-! ## Runs -/

/-- A call of the list, with the address that the system gives for a new link, or of one of its
iterators. -/
inductive Call (δ : Type) where
  | append (x : Element δ) (addr : Nat)
  | prepend (x : Element δ) (addr : Nat)
  | add_after (after : Nat) (x : Element δ) (addr : Nat)
  | unlink (data : Option δ)
  | unlink_first
  | unlink_after (after : Nat) (destroy : Bool)
  | reverse
  | zap (destroy : Bool)
  | iter_rewind (i : Nat)
  | iter_next (i : Nat)
  | iter_find (i : Nat) (data : Option δ)
  | iter_unlink (i : Nat) (destroy : Bool)
  | iter_xunlink (i : Nat) (destroy : Bool)

/-- A list with its iterators, and the sequence that it should be. -/
structure World (δ : Type) where
  list : WvList δ
  iters : Nat → Iter
  elems : List (Nat × Element δ)

def World.init : World δ := ⟨empty, fun _ => {}, []⟩

def refCall [DecidableEq δ] (w : World δ) :
    Call δ → List (Nat × Element δ) × List (Nat × Element δ)
  | .append x addr => (w.elems ++ [(addr, x)], [])
  | .prepend x addr => ((addr, x) :: w.elems, [])
  | .add_after after x addr => (w.elems.insertIdx (place w.elems after) (addr, x), [])
  | .unlink data => (w.elems.filter fun y => y.2.data ≠ data, w.elems.filter fun y => y.2.data = data)
  | .unlink_first => (w.elems.eraseIdx 0, w.elems[0]?.toList)
  | .unlink_after after _ =>
    (w.elems.eraseIdx (place w.elems after), w.elems[place w.elems after]?.toList)
  | .reverse => (w.elems.reverse, [])
  | .zap _ => ([], w.elems)
  | .iter_unlink i _ | .iter_xunlink i _ =>
    -- the element at `link`
    (w.elems.filter fun y => (w.iters i).link ≠ some y.1,
      w.elems.filter fun y => (w.iters i).link = some y.1)
  | .iter_rewind _ | .iter_next _ | .iter_find _ _ => (w.elems, [])

/-- Whether the elements that a call removes are to be destroyed. -/
def Call.destroy : Call δ → Bool
  | .unlink_after _ destroy | .zap destroy | .iter_unlink _ destroy | .iter_xunlink _ destroy =>
    destroy
  | _ => true

/-- The list and the iterators after a call, and the elements that it destroys. -/
def exec [DecidableEq δ] (l : WvList δ) (iters : Nat → Iter) :
    Call δ → Option (WvList δ × (Nat → Iter) × List δ)
  | .append x addr => (l.append x addr).map fun l => (l, iters, [])
  | .prepend x addr => (l.prepend x addr).map fun l => (l, iters, [])
  | .add_after after x addr => (l.add_after after x addr).map fun l => (l, iters, [])
  | .unlink data => (l.unlink data).map fun r => (r.1, iters, r.2)
  | .unlink_first => l.unlink_first.map fun r => (r.1, iters, r.2)
  | .unlink_after after destroy => (l.unlink_after after destroy).map fun r => (r.1, iters, r.2)
  | .reverse => l.reverse.map fun l => (l, iters, [])
  | .zap destroy => (l.zap destroy).map fun r => (r.1, iters, r.2)
  | .iter_rewind i => some (l, Function.update iters i .rewind, [])
  | .iter_next i => ((iters i).next l).map fun it => (l, Function.update iters i it, [])
  | .iter_find i data => (Iter.find l data).map fun it => (l, Function.update iters i it, [])
  | .iter_unlink i destroy => ((iters i).unlink l destroy).map fun r =>
    (r.1, Function.update iters i r.2.1, r.2.2)
  | .iter_xunlink i destroy => ((iters i).xunlink l destroy).map fun r =>
    (r.1, Function.update iters i r.2.1, r.2.2)

def machine [DecidableEq δ] : Machine (World δ) (Call δ) (List δ) where
  step w call := (exec w.list w.iters call).map fun r =>
    (⟨r.1, r.2.1, (refCall w call).1⟩, r.2.2)

/-- A link of the list, or `head`. -/
def Live (l : WvList δ) (a : Nat) : Prop := l.heap.load a ≠ none

/-- The iterator stands on an element, behind its `prev`. -/
def Stands (l : WvList δ) (it : Iter) : Prop :=
  it.link ≠ none ∧ (it.prev.bind l.heap.load).bind Cell.next = it.link

/-- An iterator that has been moved stands on an element, unless it is at the end. -/
theorem Iter.stands_next {it it' : Iter} (h : it.next l = some it') (hlink : it'.link ≠ none) :
    Stands l it' := by
  obtain ⟨a, -, h⟩ := bind_eq_some_iff.mp h
  obtain ⟨c, hload, rfl⟩ := map_eq_some_iff.mp h
  exact ⟨hlink, congrArg (Option.bind · Cell.next) hload⟩

theorem Iter.stands_find [DecidableEq δ] {data : Option δ} {it : Iter}
    (h : Iter.find l data = some it) (hlink : it.link ≠ none) : Stands l it := by
  have hloop : ∀ n it', findLoop l data n it' = some it → Stands l it := by
    intro n
    induction n with
    | zero => exact nofun
    | succ n ih =>
      intro it' h
      obtain ⟨it₁, hnext, h⟩ := bind_eq_some_iff.mp h
      split at h
      · rename_i hnone
        exact absurd (Option.some.inj h ▸ hnone) hlink
      · obtain ⟨c, -, h⟩ := bind_eq_some_iff.mp h
        split at h
        · exact Option.some.inj h ▸ stands_next hnext (Option.some.inj h ▸ hlink)
        · exact ih it₁ h
  exact hloop _ _ h

theorem Iter.stands_unlink {l' : WvList δ} {it it' : Iter} {destroy : Bool} {gone : List δ}
    (h : it.unlink l destroy = some (l', it', gone)) (hlink : it'.link ≠ none) : Stands l' it' := by
  obtain ⟨p, -, h⟩ := bind_eq_some_iff.mp h
  obtain ⟨r, -, h⟩ := bind_eq_some_iff.mp h
  obtain ⟨c, hload, h⟩ := map_eq_some_iff.mp h
  obtain ⟨rfl, rfl, -⟩ : r.1 = l' ∧ ⟨c.next, some p⟩ = it' ∧ r.2 = gone := by simpa using h
  exact ⟨hlink, congrArg (Option.bind · Cell.next) hload⟩

/-- Memory for a link is new, links are those of the list, and an iterator is moved from a link or
unlinks the element that it stands on. -/
def Legal (w : World δ) : Call δ → Prop
  | .append _ addr | .prepend _ addr => ¬ Live w.list addr
  | .add_after after _ addr => Live w.list after ∧ ¬ Live w.list addr
  | .unlink_after after _ => Live w.list after
  | .iter_next i => (w.iters i).link.bind w.list.heap.load ≠ none
  | .iter_unlink i _ | .iter_xunlink i _ => Stands w.list (w.iters i)
  | _ => True

instance decidableLive [DecidableEq δ] (l : WvList δ) (a : Nat) : Decidable (Live l a) :=
  inferInstanceAs (Decidable (_ ≠ _))

instance decidableLegal [DecidableEq δ] (w : World δ) : (call : Call δ) → Decidable (Legal w call)
  | .append _ addr | .prepend _ addr => inferInstanceAs (Decidable (¬ Live w.list addr))
  | .add_after after _ addr =>
    inferInstanceAs (Decidable (Live w.list after ∧ ¬ Live w.list addr))
  | .unlink_after after _ => inferInstanceAs (Decidable (Live w.list after))
  | .iter_next i => inferInstanceAs (Decidable ((w.iters i).link.bind w.list.heap.load ≠ none))
  | .iter_unlink i _ | .iter_xunlink i _ =>
    inferInstanceAs (Decidable ((w.iters i).link ≠ none ∧ _))
  | .unlink _ | .unlink_first | .reverse | .zap _ | .iter_rewind _ | .iter_find _ _ =>
    .isTrue trivial

/-- The list is the sequence, and a loop that goes forward visits all of it. -/
structure Good (w : World δ) : Prop where
  repr : Repr w.list w.elems
  visits : ∀ choose destroy, ∃ l,
    w.list.forEach choose destroy = some (w.elems, l, released destroy (w.elems.filter choose)) ∧
      Repr l (w.elems.filter fun y => !choose y)

theorem Repr.good {w : World δ} (h : Repr w.list w.elems) : Good w :=
  ⟨h, forEach_spec h⟩

theorem Stands.split {it : Iter} (hit : Stands l it) (h : Repr l elems) :
    ∃ xs p v b x ys, l.Has (xs ++ (p, v) :: (b, x) :: ys) ∧ it.prev = some p ∧ it.link = some b ∧
      (0, headElement) :: (elems.filter fun y => it.link ≠ some y.1) = xs ++ (p, v) :: ys ∧
      (elems.filter fun y => it.link = some y.1) = [(b, x)] := by
  obtain ⟨b, hlink⟩ := ne_none_iff_exists'.mp hit.1
  obtain ⟨c, hload, hnext⟩ := bind_eq_some_iff.mp (hit.2.trans hlink)
  obtain ⟨p, hprev, hload⟩ := bind_eq_some_iff.mp hload
  have hlive : l.heap.load p ≠ none := by
    rw [hload]
    exact some_ne_none c
  obtain ⟨xs, v, ys, hsplit⟩ := h.exists_split hlive
  have hhas : l.Has (xs ++ (p, v) :: ys) := hsplit ▸ h
  obtain ⟨next, hload', -, hys, -, -⟩ := hhas.split
  obtain rfl : c = ⟨v, next⟩ := some.inj (hload.symm.trans hload')
  obtain rfl : next = some b := hnext
  cases ys with
  | nil => exact absurd hys (some_ne_none b)
  | cons y ys =>
    obtain rfl : b = y.1 := some.inj hys.1
    have hmiddle : xs ++ (p, v) :: y :: ys = xs ++ [(p, v)] ++ y :: ys := by simp
    have hnodup := hhas.nodup
    rw [hmiddle, map_append, map_cons, nodup_middle, nodup_cons, mem_append, not_or] at hnodup
    obtain ⟨⟨hfront, hback⟩, -⟩ := hnodup
    have hne : ∀ {zs : List (Nat × Element δ)}, y.1 ∉ zs.map Prod.fst → ∀ z ∈ zs, y.1 ≠ z.1 :=
      fun hzs z hz heq => hzs (heq ▸ mem_map_of_mem hz)
    have hhead : y.1 ≠ 0 := by
      have hmem : ((0, headElement) : Nat × Element δ) ∈ xs ++ [(p, v)] := by
        cases xs with
        | nil | cons z xs => exact (cons.inj hsplit).1 ▸ mem_cons_self
      exact hne hfront _ hmem
    have hkept : ∀ {zs : List (Nat × Element δ)}, y.1 ∉ zs.map Prod.fst →
        (zs.filter fun z => it.link ≠ some z.1) = zs := fun hzs =>
      filter_eq_self.mpr (fun z hz => by simpa [hlink] using hne hzs z hz)
    have hgone : ∀ {zs : List (Nat × Element δ)}, y.1 ∉ zs.map Prod.fst →
        (zs.filter fun z => it.link = some z.1) = [] := fun hzs =>
      filter_eq_nil_iff.mpr (fun z hz => by simpa [hlink] using hne hzs z hz)
    refine ⟨xs, p, v, y.1, y.2, ys, hhas, hprev, hlink, ?_, ?_⟩
    · have hfilter := congrArg (filter fun z => decide (it.link ≠ some z.1)) hsplit
      rw [filter_cons_of_pos (by simpa [hlink] using hhead), hmiddle, filter_append,
        hkept hfront, filter_cons_of_neg (by simp [hlink]), hkept hback] at hfilter
      rw [hfilter, append_assoc]
      rfl
    · have hfilter := congrArg (filter fun z => decide (it.link = some z.1)) hsplit
      rw [filter_cons_of_neg (by simpa [hlink] using hhead), hmiddle, filter_append,
        hgone hfront, filter_cons_of_pos (by simp [hlink]), hgone hback] at hfilter
      exact hfilter

theorem exec_spec [DecidableEq δ] {w : World δ} (call : Call δ) (h : Repr w.list w.elems)
    (hlegal : Legal w call) :
    ∃ l iters, exec w.list w.iters call =
        some (l, iters, released call.destroy (refCall w call).2) ∧ Repr l (refCall w call).1 := by
  cases call with
  | append x addr =>
    obtain ⟨l, hadd, hrepr⟩ := add_after_spec h h.tail_live (not_not.mp hlegal) x
    rw [h.place_tail, insertIdx_length_self] at hrepr
    refine ⟨l, w.iters, ?_, hrepr⟩
    rw [exec, append, hadd]
    rfl
  | prepend x addr =>
    have hhead : w.list.heap.load 0 ≠ none := h.seg.live mem_cons_self
    obtain ⟨l, hadd, hrepr⟩ := add_after_spec h hhead (not_not.mp hlegal) x
    have hplace : place w.elems 0 = 0 := idxOf_cons_self
    rw [hplace] at hrepr
    refine ⟨l, w.iters, ?_, hrepr⟩
    rw [exec, prepend, hadd]
    rfl
  | add_after after x addr =>
    obtain ⟨l, hadd, hrepr⟩ := add_after_spec h hlegal.1 (not_not.mp hlegal.2) x
    refine ⟨l, w.iters, ?_, hrepr⟩
    rw [exec, hadd]
    rfl
  | unlink data =>
    obtain ⟨l, hunlink, hrepr⟩ := unlink_spec h data
    refine ⟨l, w.iters, ?_, hrepr⟩
    rw [exec, hunlink]
    rfl
  | unlink_first =>
    obtain ⟨l, hunlink, hrepr⟩ := unlink_first_spec h
    refine ⟨l, w.iters, ?_, hrepr⟩
    rw [exec, hunlink]
    rfl
  | unlink_after after destroy =>
    obtain ⟨l, hunlink, hrepr⟩ := unlink_after_spec h hlegal destroy
    refine ⟨l, w.iters, ?_, hrepr⟩
    rw [exec, hunlink]
    rfl
  | reverse =>
    obtain ⟨l, hreverse, hrepr⟩ := reverse_spec h
    refine ⟨l, w.iters, ?_, hrepr⟩
    rw [exec, hreverse]
    rfl
  | zap destroy =>
    obtain ⟨l, hzap, hrepr⟩ := zap_spec h destroy
    refine ⟨l, w.iters, ?_, hrepr⟩
    rw [exec, hzap]
    rfl
  | iter_rewind i => exact ⟨w.list, _, rfl, h⟩
  | iter_next i =>
    obtain ⟨c, hload⟩ := ne_none_iff_exists'.mp hlegal
    obtain ⟨a, hlink, hload⟩ := bind_eq_some_iff.mp hload
    have hlive : w.list.heap.load a ≠ none := by
      rw [hload]
      exact some_ne_none c
    obtain ⟨xs, v, ys, hsplit⟩ := h.exists_split hlive
    have hhas : w.list.Has (xs ++ (a, v) :: ys) := by
      rw [← hsplit]
      exact h
    have hnext := hhas.next (w.iters i) hlink
    refine ⟨w.list, Function.update w.iters i ⟨ys.head?.map Prod.fst, some a⟩, ?_, h⟩
    rw [exec, hnext]
    rfl
  | iter_find i data =>
    obtain ⟨it, hfind, -⟩ := findLoop_spec data (Nat.lt_of_succ_le (Has.length_le h))
      (show w.list.Has ([] ++ _ :: _) from h) .rewind rfl
    refine ⟨w.list, Function.update w.iters i it, ?_, h⟩
    rw [exec, Iter.find, hfind]
    rfl
  | iter_unlink i destroy =>
    obtain ⟨xs, p, v, b, x, ys, hhas, hprev, hlink, hkept, hgone⟩ := Stands.split hlegal h
    obtain ⟨l, hunlink, hrepr⟩ := hhas.iter_unlink (w.iters i) hprev destroy
    refine ⟨l, Function.update w.iters i ⟨ys.head?.map Prod.fst, some p⟩, ?_, ?_⟩
    · rw [exec, hunlink, map_some, refCall, hgone]
      rfl
    · rw [Repr, refCall, hkept]
      exact hrepr
  | iter_xunlink i destroy =>
    obtain ⟨xs, p, v, b, x, ys, hhas, hprev, hlink, hkept, hgone⟩ := Stands.split hlegal h
    obtain ⟨l, hunlink, hrepr⟩ := hhas.iter_xunlink (w.iters i) hprev destroy
    refine ⟨l, Function.update w.iters i ⟨some p, some p⟩, ?_, ?_⟩
    · rw [exec, hunlink, map_some, refCall, hgone]
      rfl
    · rw [Repr, refCall, hkept]
      exact hrepr

/-- In every run the list is the sequence, and destroys what it removes and owns. -/
theorem run_refines [DecidableEq δ] {calls : List (Call δ)}
    (h : (machine (δ := δ)).Along Legal .init calls) :
    Good (.init : World δ) ∧ (machine (δ := δ)).Runs (fun w call w' destroyed => Good w' ∧
        destroyed = released call.destroy (refCall w call).2) .init calls := by
  have hstep : ∀ (w : World δ) (call : Call δ), Good w → Legal w call →
      ∃ w' destroyed, machine.step w call = some (w', destroyed) ∧
        (Good w' ∧ destroyed = released call.destroy (refCall w call).2) ∧ Good w' := by
    intro w call hgood hlegal
    obtain ⟨l, iters, hexec, hrepr⟩ := exec_spec call hgood.repr hlegal
    have hgood' : Good (⟨l, iters, (refCall w call).1⟩ : World δ) := Repr.good hrepr
    refine ⟨_, _, ?_, ⟨hgood', rfl⟩, hgood'⟩
    show (exec w.list w.iters call).map _ = _
    rw [hexec]
    rfl
  have hinit : Good (.init : World δ) := Repr.good repr_empty
  exact ⟨hinit, Machine.runs_of_along hstep hinit h⟩

/-- The last element is unlinked through an iterator, and more are appended after that and after a
reversal. -/
theorem run_refines_unlinked :
    Good (.init : World Nat) ∧
      (machine : Machine (World Nat) (Call Nat) (List Nat)).Runs (fun w call w' destroyed =>
        Good w' ∧ destroyed = released call.destroy (refCall w call).2) .init
        [.append ⟨some 5, true⟩ 1, .append ⟨some 6, true⟩ 2, .iter_find 0 (some 6),
          .iter_xunlink 0 true, .append ⟨some 7, false⟩ 2, .reverse, .append ⟨some 5, true⟩ 3,
          .unlink (some 5), .zap true] :=
  run_refines (by decide)

end WvList

end WvStreams
