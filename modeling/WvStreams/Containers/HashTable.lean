import Mathlib.Data.List.Perm.Basic
import WvStreams.Strings.WvString

/-!
# `WvHashTable`

The table behind `WvDict` has a list of elements in each slot, and an element goes to the end
of the list that the hash of its key names. `Holds t l` says that the elements of `l` were
added in this order: the first one with a key is found (`Holds.find`) and changed
(`Holds.update`), and the iterator gives all of them (`Holds.perm`).
-/

namespace WvStreams

open List

/-- Of each character the low five bits count, which are the same in both cases. -/
def WvHash (s : Str) : UInt32 :=
  s.foldl (fun hash c => (hash <<< 4) ^^^ (c &&& 0x1F).toUInt32 ^^^ ((hash &&& 0xF8000000) >>> 27)) 0

/-- The key of an element, and its hash. -/
class Accessor (α : Type) (κ : outParam Type) where
  get_key : α → κ
  hash : κ → UInt32

export Accessor (get_key)

structure WvHashTable (α : Type) where
  slots : List (List α)
  nonempty : slots ≠ []

section First

variable {α : Type} (p : α → Bool) (f : α → α)

def modifyFirst : List α → List α
  | [] => []
  | x :: xs => if p x then f x :: xs else x :: modifyFirst xs

variable {q : α → Bool}

theorem filter_modifyFirst_of_not (hf : ∀ x, p x → q x = false ∧ q (f x) = false) (l : List α) :
    (modifyFirst p f l).filter q = l.filter q := by
  induction l with
  | nil => rfl
  | cons x l ih =>
    rw [modifyFirst]
    split
    · rename_i hx
      obtain ⟨h1, h2⟩ := hf x hx
      rw [filter_cons_of_neg (by simp [h2]), filter_cons_of_neg (by simp [h1])]
    · rw [filter_cons, filter_cons, ih]

theorem filter_modifyFirst (hf : ∀ x, p x → q x = true ∧ q (f x) = true) (l : List α) :
    (modifyFirst p f l).filter q = modifyFirst p f (l.filter q) := by
  induction l with
  | nil => rfl
  | cons x l ih =>
    by_cases hx : p x = true
    · obtain ⟨h1, h2⟩ := hf x hx
      rw [modifyFirst, if_pos hx, filter_cons_of_pos h2, filter_cons_of_pos h1,
        modifyFirst, if_pos hx]
    · rw [modifyFirst, if_neg hx]
      by_cases hq : q x = true
      · rw [filter_cons_of_pos hq, filter_cons_of_pos hq, modifyFirst, if_neg hx, ih]
      · rw [filter_cons_of_neg hq, filter_cons_of_neg hq, ih]

theorem filter_eraseP_of_not (hq : ∀ x, p x → q x = false) (l : List α) :
    (l.eraseP p).filter q = l.filter q := by
  induction l with
  | nil => rfl
  | cons x l ih =>
    by_cases hx : p x = true
    · rw [eraseP_cons_of_pos hx, filter_cons_of_neg (by simp [hq x hx])]
    · rw [eraseP_cons_of_neg hx, filter_cons, filter_cons, ih]

theorem filter_eraseP (hq : ∀ x, p x → q x = true) (l : List α) :
    (l.eraseP p).filter q = (l.filter q).eraseP p := by
  induction l with
  | nil => rfl
  | cons x l ih =>
    by_cases hx : p x = true
    · rw [eraseP_cons_of_pos hx, filter_cons_of_pos (hq x hx), eraseP_cons_of_pos hx]
    · rw [eraseP_cons_of_neg hx, filter_cons, filter_cons, ih]
      split
      · rw [eraseP_cons_of_neg hx]
      · rfl

theorem find?_filter_of_imp (hq : ∀ x, p x → q x = true) (l : List α) :
    (l.filter q).find? p = l.find? p := by
  induction l with
  | nil => rfl
  | cons x l ih =>
    by_cases hx : p x = true
    · rw [filter_cons_of_pos (hq x hx), find?_cons_of_pos hx, find?_cons_of_pos hx]
    · rw [find?_cons_of_neg hx, filter_cons]
      split
      · rw [find?_cons_of_neg hx, ih]
      · exact ih

theorem find?_of_imp {p : α → Bool} {l : List α} {i : α} (h : l.find? p = some i)
    (hi : q i = true) (hq : ∀ j, q j = true → p j = true) : l.find? q = some i := by
  induction l with
  | nil => cases h
  | cons j l ih =>
    by_cases hj : q j = true
    · rw [find?_cons_of_pos hj]
      rwa [find?_cons_of_pos (hq j hj)] at h
    · rw [find?_cons_of_neg hj]
      by_cases hpj : p j = true
      · rw [find?_cons_of_pos hpj] at h
        cases h
        exact absurd hi hj
      · rw [find?_cons_of_neg hpj] at h
        exact ih h

theorem modifyFirst_map {ι : Type} {p : α → Bool} {f : α → α} {g g' : ι → α} {l : List ι} {i : ι}
    (hi : l.find? (fun j => p (g j)) = some i) (hnodup : l.Nodup) (hself : g' i = f (g i))
    (hother : ∀ j, j ≠ i → g' j = g j) : modifyFirst p f (l.map g) = l.map g' := by
  induction l with
  | nil => cases hi
  | cons j l ih =>
    obtain ⟨hj, hnodup⟩ := nodup_cons.mp hnodup
    rw [map_cons, map_cons, modifyFirst]
    by_cases hp : p (g j) = true
    · rw [find?_cons_of_pos (p := fun j => p (g j)) hp] at hi
      cases hi
      rw [if_pos hp, hself]
      congr 1
      apply map_congr_left
      intro k hk
      exact (hother k fun e => hj (e ▸ hk)).symm
    · rw [find?_cons_of_neg (p := fun j => p (g j)) hp] at hi
      have hne : j ≠ i := by
        rintro rfl
        exact hp (find?_some (p := fun j => p (g j)) hi)
      rw [if_neg hp, ih hi hnodup, hother j hne]

theorem perm_flatMap_filter {n : Nat} {num : α → Nat} {l : List α} (h : ∀ x ∈ l, num x < n) :
    ((range n).flatMap fun i => l.filter fun x => num x = i).Perm l := by
  induction n generalizing l with
  | zero =>
    have hnil : l = [] := eq_nil_iff_forall_not_mem.mpr fun x hx => absurd (h x hx) (by omega)
    simp [hnil]
  | succ n ih =>
    have hrest : ∀ x ∈ l.filter fun x => !decide (num x = n), num x < n := by
      intro x hx
      obtain ⟨hmem, hne⟩ := mem_filter.mp hx
      have hlt := h x hmem
      have hne' : num x ≠ n := by simpa using hne
      omega
    have hparts : ((range n).flatMap fun i => l.filter fun x => num x = i) =
        (range n).flatMap fun i =>
          (l.filter fun x => !decide (num x = n)).filter fun x => num x = i := by
      apply flatMap_congr
      intro i hi
      rw [filter_filter]
      apply filter_congr
      intro x _
      have hlt : i < n := mem_range.mp hi
      by_cases hx : num x = i
      · simp [hx, Nat.ne_of_lt hlt]
      · simp [hx]
    rw [range_succ, flatMap_append, hparts]
    refine (Perm.append_right _ (ih hrest)).trans ?_
    simp only [flatMap_cons, flatMap_nil, append_nil]
    exact perm_append_comm.trans (filter_append_perm _ l)

end First

namespace WvHashTable

variable {α κ : Type}

/-- The constructor: the least number `2 ^ slides - 1` that is not below `_numslots`. -/
def empty (_numslots : Nat) : WvHashTable α where
  slots := List.replicate (2 ^ (Nat.log2 _numslots + 1) - 1) []
  nonempty := by
    have h : 2 ^ 1 ≤ 2 ^ (Nat.log2 _numslots + 1) := Nat.pow_le_pow_right (by omega) (by omega)
    simp only [ne_eq, List.replicate_eq_nil_iff]
    omega

def numslots (t : WvHashTable α) : Nat := t.slots.length

theorem numslots_pos (t : WvHashTable α) : 0 < t.numslots := length_pos_iff.mpr t.nonempty

variable [Accessor α κ]

def slot (t : WvHashTable α) (key : κ) : Nat := (Accessor.hash α key).toNat % t.numslots

theorem slot_lt (t : WvHashTable α) (key : κ) : t.slot key < t.numslots :=
  Nat.mod_lt _ t.numslots_pos

def add (t : WvHashTable α) (data : α) : WvHashTable α where
  slots := t.slots.modify (t.slot (get_key data)) (· ++ [data])
  nonempty := by simpa using t.nonempty

section

variable [DecidableEq κ]

def find (t : WvHashTable α) (key : κ) : Option α :=
  (t.slots.getD (t.slot key) []).find? fun data => get_key data = key

/-- `remove` of an element with this key: the first one with the key goes. -/
def remove (t : WvHashTable α) (key : κ) : WvHashTable α where
  slots := t.slots.modify (t.slot key) (List.eraseP fun data => get_key data = key)
  nonempty := by simpa using t.nonempty

def update (t : WvHashTable α) (key : κ) (f : α → α) : WvHashTable α where
  slots := t.slots.modify (t.slot key) (modifyFirst (fun data => get_key data = key) f)
  nonempty := by simpa using t.nonempty

end

def toList (t : WvHashTable α) : List α := t.slots.flatten

def Holds (t : WvHashTable α) (l : List α) : Prop :=
  t.slots = (List.range t.numslots).map fun i => l.filter fun data => t.slot (get_key data) = i

namespace Holds

variable {t : WvHashTable α} {l : List α}

theorem empty (_numslots : Nat) : Holds (WvHashTable.empty _numslots : WvHashTable α) [] := by
  simp [Holds, WvHashTable.empty, numslots]

theorem of_modify (h : t.Holds l) {t' : WvHashTable α} {l' : List α} {i : Nat}
    {f : List α → List α} (ht : t'.slots = t.slots.modify i f)
    (hself : f (l.filter fun data => t.slot (get_key data) = i) =
      l'.filter fun data => t.slot (get_key data) = i)
    (hother : ∀ j, j ≠ i → (l.filter fun data => t.slot (get_key data) = j) =
      l'.filter fun data => t.slot (get_key data) = j) : t'.Holds l' := by
  have hnum : t'.numslots = t.numslots := by rw [numslots, ht, length_modify, numslots]
  have hslot : ∀ key, t'.slot key = t.slot key := fun key => by rw [slot, slot, hnum]
  unfold Holds
  simp only [hnum, hslot]
  rw [ht, h]
  apply ext_getElem?
  intro j
  rw [getElem?_modify, getElem?_map, getElem?_map]
  rcases Nat.lt_or_ge j t.numslots with hj | hj
  · rw [getElem?_range hj]
    by_cases hij : i = j
    · subst hij
      simp [hself]
    · simp [hij, hother j (Ne.symm hij)]
  · rw [getElem?_eq_none (by simpa using hj)]
    rfl

theorem add (h : t.Holds l) (data : α) : (t.add data).Holds (l ++ [data]) := by
  apply h.of_modify rfl
  · simp
  · intro j hj
    simp [Ne.symm hj]

theorem getD_slot (h : t.Holds l) (key : κ) :
    t.slots.getD (t.slot key) [] = l.filter fun data => t.slot (get_key data) = t.slot key := by
  rw [h, getD_eq_getElem?_getD, getElem?_map, getElem?_range (t.slot_lt key)]
  rfl

theorem find [DecidableEq κ] (h : t.Holds l) (key : κ) :
    t.find key = l.find? fun data => get_key data = key := by
  rw [WvHashTable.find, h.getD_slot]
  apply find?_filter_of_imp
  intro data hdata
  have hkey : get_key data = key := by simpa using hdata
  simp [hkey]

theorem update [DecidableEq κ] (h : t.Holds l) {f : α → α} (hf : ∀ data, get_key (f data) = get_key data)
    (key : κ) : (t.update key f).Holds (modifyFirst (fun data => get_key data = key) f l) := by
  apply h.of_modify rfl
  · apply (filter_modifyFirst _ _ _ l).symm
    intro data hdata
    have hkey : get_key data = key := by simpa using hdata
    simp [hf, hkey]
  · intro j hj
    apply (filter_modifyFirst_of_not _ _ _ l).symm
    intro data hdata
    have hkey : get_key data = key := by simpa using hdata
    simp [hf, hkey, Ne.symm hj]

theorem remove [DecidableEq κ] (h : t.Holds l) (key : κ) :
    (t.remove key).Holds (l.eraseP fun data => get_key data = key) := by
  apply h.of_modify rfl
  · apply (filter_eraseP _ _ l).symm
    intro data hdata
    have hkey : get_key data = key := by simpa using hdata
    simp [hkey]
  · intro j hj
    apply (filter_eraseP_of_not _ _ l).symm
    intro data hdata
    have hkey : get_key data = key := by simpa using hdata
    simp [hkey, Ne.symm hj]

theorem perm (h : t.Holds l) : t.toList.Perm l := by
  rw [toList, h, ← flatMap_def]
  exact perm_flatMap_filter fun data _ => t.slot_lt (get_key data)

end Holds

end WvHashTable

end WvStreams
