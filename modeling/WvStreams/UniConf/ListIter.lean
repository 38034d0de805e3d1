import WvStreams.UniConf.Key

/-!
# `UniListIter`

The iterator has its keys and its values in two lists, and a null value is put into neither. So
the values come at the first keys, whichever they were given with: `aligned_iff` says for which
calls of `add` that is right.
-/

namespace WvStreams

open List

/-- Where a `WvList::Iter` is: at the head in front of the list, at an element (counted from one),
or behind the end. -/
abbrev Link : Type := Option Nat

/-- `next` in a list with so many elements. -/
def Link.next (count : Nat) : Link → Link
  | none => none
  | some i => if i < count then some (i + 1) else none

def Link.ptr {α : Type} (list : List α) : Link → Option α
  | some (i + 1) => list[i]?
  | _ => none

structure UniListIter where
  keys : List UniConfKey := []
  values : List Str := []
  ki : Link := none
  vi : Link := none

namespace UniListIter

def add (it : UniListIter) (k : UniConfKey) (v : WvString) : UniListIter :=
  { it with keys := it.keys ++ [k], values := it.values ++ v.toList }

def rewind (it : UniListIter) : UniListIter := { it with ki := some 0, vi := some 0 }

def next (it : UniListIter) : UniListIter × Bool :=
  let vi := if it.vi.isSome then it.vi.next it.values.length else it.vi
  let ki := it.ki.next it.keys.length
  ({ it with ki, vi }, ki.isSome)

/-- `none` if the iterator is at no key. -/
def key (it : UniListIter) : Option UniConfKey := it.ki.ptr it.keys

variable (get : UniConfKey → WvString)

def value (it : UniListIter) : WvString :=
  if it.vi.isSome then it.vi.ptr it.values else it.key.bind get

/-- Calls of `next`, as many as allowed, until it returns `false`: the keys with their values, and
whether it did so. -/
def iterate : Nat → UniListIter → List (Option UniConfKey × WvString) × Bool
  | 0, _ => ([], false)
  | n + 1, it =>
    let (it, more) := it.next
    if more then
      let (yields, ended) := iterate n it
      ((it.key, it.value get) :: yields, ended)
    else ([], true)

def filled (calls : List (UniConfKey × WvString)) : UniListIter :=
  calls.foldl (fun it call => it.add call.1 call.2) {}

/-- A full iteration gives each key that was added, with its own value or that of the
generator. -/
def Aligned (calls : List (UniConfKey × WvString)) : Prop :=
  iterate get (calls.length + 1) (filled calls).rewind =
    (calls.map fun call => (some call.1, call.2.or (get call.1)), true)

theorem filled_eq (calls : List (UniConfKey × WvString)) :
    filled calls = { keys := calls.map Prod.fst, values := calls.filterMap Prod.snd } := by
  have happend : ∀ it : UniListIter, calls.foldl (fun it call => it.add call.1 call.2) it =
      { it with
        keys := it.keys ++ calls.map Prod.fst
        values := it.values ++ calls.filterMap Prod.snd } := by
    induction calls with
    | nil => intro it; simp
    | cons call calls ih =>
      intro it
      rw [foldl_cons, ih]
      obtain ⟨k, v⟩ := call
      cases v <;> simp [add]
  exact happend {}

def deal : List UniConfKey → List Str → List (Option UniConfKey × WvString)
  | [], _ => []
  | k :: keys, [] => (some k, get k) :: deal keys []
  | k :: keys, v :: values => (some k, some v) :: deal keys values

/-- The two iterators are at the same place until the values are at their end. -/
def position (values i : Nat) : Link := if i ≤ values then some i else none

theorem next_position (values i : Nat) :
    (if (position values i).isSome then (position values i).next values else position values i) =
      position values (i + 1) := by
  unfold position
  by_cases hle : i ≤ values
  · rw [if_pos hle, Option.isSome_some, if_pos rfl]
    rfl
  · have hnext : ¬ i + 1 ≤ values := by omega
    rw [if_neg hle, if_neg hnext]
    rfl

theorem iterate_deal (keys : List UniConfKey) (values : List Str) {i n : Nat}
    (hi : i ≤ keys.length) (hn : keys.length < n + i) :
    iterate get n { keys, values, ki := some i, vi := position values.length i } =
      (deal get (keys.drop i) (values.drop i), true) := by
  induction n generalizing i with
  | zero => omega
  | succ n ih =>
    rw [iterate, next]
    dsimp only
    rw [next_position]
    rcases Nat.lt_or_eq_of_le hi with hlt | rfl
    · have hki : Link.next keys.length (some i) = some (i + 1) := if_pos hlt
      rw [hki, Option.isSome_some, if_pos rfl, ih hlt (by omega), drop_eq_getElem_cons hlt,
        key, value]
      dsimp only [Link.ptr]
      rw [getElem?_eq_getElem hlt]
      by_cases hvalue : i < values.length
      · have hvi : position values.length (i + 1) = some (i + 1) := if_pos hvalue
        rw [hvi, Option.isSome_some, if_pos rfl, drop_eq_getElem_cons hvalue]
        dsimp only [Link.ptr]
        rw [getElem?_eq_getElem hvalue]
        rfl
      · have hvi : position values.length (i + 1) = none := if_neg (by omega)
        have hnil : values.drop i = [] := drop_eq_nil_of_le (Nat.not_lt.mp hvalue)
        have hnil' : values.drop (i + 1) = [] := drop_eq_nil_of_le (by omega)
        rw [hvi, hnil, hnil', Option.isSome_none, if_neg Bool.false_ne_true, key]
        dsimp only [Link.ptr]
        rw [getElem?_eq_getElem hlt]
        rfl
    · have hki : Link.next keys.length (some keys.length) = none := if_neg (Nat.lt_irrefl _)
      rw [hki, drop_length]
      rfl

theorem iterate_filled (calls : List (UniConfKey × WvString)) :
    iterate get (calls.length + 1) (filled calls).rewind =
      (deal get (calls.map Prod.fst) (calls.filterMap Prod.snd), true) := by
  have hlen : (calls.map Prod.fst).length < calls.length + 1 + 0 := by
    rw [length_map]
    omega
  have hposition : position (calls.filterMap Prod.snd).length 0 = some 0 := if_pos (Nat.zero_le _)
  have h := iterate_deal get (calls.map Prod.fst) (calls.filterMap Prod.snd) (Nat.zero_le _) hlen
  rw [hposition] at h
  rw [filled_eq]
  exact h

/-- No null value comes before one that is not null. -/
def ValuesFirst (calls : List (UniConfKey × WvString)) : Prop :=
  calls.Pairwise fun a b => a.2 = none → b.2 = none

theorem deal_nil (keys : List UniConfKey) :
    deal get keys [] = keys.map fun k => (some k, get k) := by
  induction keys with
  | nil => rfl
  | cons k keys ih => rw [deal, ih, map_cons]

theorem deal_of_valuesFirst {calls : List (UniConfKey × WvString)} (h : ValuesFirst calls) :
    deal get (calls.map Prod.fst) (calls.filterMap Prod.snd) =
      calls.map fun call => (some call.1, call.2.or (get call.1)) := by
  induction calls with
  | nil => rfl
  | cons call calls ih =>
    obtain ⟨hfirst, hrest⟩ := pairwise_cons.mp h
    obtain ⟨k, v⟩ := call
    cases v with
    | some v => exact congrArg ((some k, some v) :: ·) (ih hrest)
    | none =>
      -- there are no more values
      have hnone : ∀ call ∈ (k, none) :: calls, call.2 = none :=
        forall_mem_cons.mpr ⟨rfl, fun call hcall => hfirst call hcall rfl⟩
      rw [filterMap_eq_nil_iff.mpr hnone, deal_nil, map_map]
      apply map_congr_left
      intro call hcall
      rw [hnone call hcall]
      rfl

theorem valuesFirst_of_deal {calls : List (UniConfKey × WvString)}
    (h : deal (fun _ => none) (calls.map Prod.fst) (calls.filterMap Prod.snd) =
      calls.map fun call => (some call.1, call.2.or none)) : ValuesFirst calls := by
  induction calls with
  | nil => exact Pairwise.nil
  | cons call calls ih =>
    obtain ⟨k, v⟩ := call
    cases v with
    | some v =>
      have hrest := (cons_eq_cons.mp h).2
      exact pairwise_cons.mpr ⟨fun _ _ hnone => (nomatch hnone), ih hrest⟩
    | none =>
      have hlist : deal (fun _ => none) (k :: calls.map Prod.fst) (calls.filterMap Prod.snd) =
          (some k, none) :: calls.map fun call => (some call.1, call.2.or none) := h
      cases hvalues : calls.filterMap Prod.snd with
      | nil =>
        have hnone := filterMap_eq_nil_iff.mp hvalues
        rw [hvalues] at hlist ih
        exact pairwise_cons.mpr
          ⟨fun call hcall _ => hnone call hcall, ih (cons_eq_cons.mp hlist).2⟩
      | cons v values =>
        rw [hvalues] at hlist
        cases (cons_eq_cons.mp hlist).1

/-- Every key has the value that it was given with, whatever the generator, if the calls with a
value were made before those without. -/
theorem aligned_iff (calls : List (UniConfKey × WvString)) :
    (∀ get, Aligned get calls) ↔ ValuesFirst calls := by
  constructor
  · intro h
    have hnone := h fun _ => none
    rw [Aligned, iterate_filled] at hnone
    exact valuesFirst_of_deal (Prod.mk.inj hnone).1
  · intro h get
    rw [Aligned, iterate_filled, deal_of_valuesFirst get h]

/-- `a` without a value and `b` with one: the value comes with `a`. -/
theorem aligned_fails :
    iterate (fun _ => none) 3 (filled [([[97]], none), ([[98]], some [49])]).rewind =
        ([(some [[97]], some [49]), (some [[98]], none)], true) ∧
      ¬ Aligned (fun _ => none) [([[97]], none), ([[98]], some [49])] := by
  refine ⟨rfl, fun h => ?_⟩
  have hvalues : ([some [49], none] : List WvString) = [none, some [49]] :=
    congrArg (fun r => r.1.map Prod.snd) h
  cases hvalues

end UniListIter

end WvStreams
