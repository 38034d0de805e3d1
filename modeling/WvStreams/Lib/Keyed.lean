import Mathlib.Data.List.Find
import Mathlib.Data.List.Basic

/-!
# Lists of things with keys

What is found by its key, after one of the things has been changed, added or taken away.
-/

namespace WvStreams.Lib

open List

section Keyed

variable {α κ : Type} (key : α → κ)

def DistinctKeys (l : List α) : Prop := l.Pairwise fun a b => key a ≠ key b

variable {key}

theorem DistinctKeys.modify {f : α → α} (hf : ∀ a, key (f a) = key a) {l : List α}
    (hl : DistinctKeys key l) (i : Nat) : DistinctKeys key (l.modify i f) := by
  have hkeys : (l.modify i f).map key = l.map key := by
    apply ext_getElem?
    intro j
    rw [getElem?_map, getElem?_map, getElem?_modify]
    cases l[j]? with
    | none => rfl
    | some a =>
      by_cases hij : i = j
      · simp [hij, hf]
      · simp [hij]
  have hnodup : (l.map key).Pairwise (· ≠ ·) := pairwise_map.mpr hl
  exact pairwise_map.mp (hkeys ▸ hnodup)

theorem DistinctKeys.eraseP {l : List α} (hl : DistinctKeys key l) (p : α → Bool) :
    DistinctKeys key (l.eraseP p) := hl.sublist eraseP_sublist

theorem forall_mem_modify {P : α → Prop} {f : α → α} {l : List α} (hl : ∀ a ∈ l, P a)
    (hf : ∀ a, P a → P (f a)) (i : Nat) : ∀ a ∈ l.modify i f, P a := by
  intro a ha
  obtain ⟨j, hj, rfl⟩ := getElem_of_mem ha
  rw [length_modify] at hj
  have hmem : l[j] ∈ l := getElem_mem hj
  rw [getElem_modify]
  split
  · exact hf _ (hl _ hmem)
  · exact hl _ hmem

variable [DecidableEq κ]

def keyed (key : α → κ) (l : List α) (k : κ) : Option α := l.find? fun a => decide (key a = k)

theorem keyed_cons (a : α) (l : List α) (k : κ) :
    keyed key (a :: l) k = if key a = k then some a else keyed key l k := by
  unfold keyed
  by_cases h : key a = k
  · rw [find?_cons_of_pos (by simpa using h), if_pos h]
  · rw [find?_cons_of_neg (by simpa using h), if_neg h]

variable {l : List α}

theorem key_of_keyed {k : κ} {a : α} (h : keyed key l k = some a) : key a = k := by
  simpa using find?_some h

theorem mem_of_keyed {k : κ} {a : α} (h : keyed key l k = some a) : a ∈ l :=
  mem_of_find?_eq_some h

theorem keyed_eq_none {k : κ} : keyed key l k = none ↔ ∀ a ∈ l, key a ≠ k := by
  simp [keyed, find?_eq_none]

theorem keyed_modify (key : α → κ) {f : α → α} (hf : ∀ a, key (f a) = key a) (l : List α)
    (k k' : κ) :
    keyed key (l.modify (l.findIdx fun a => decide (key a = k)) f) k' =
      if k' = k then (keyed key l k).map f else keyed key l k' := by
  induction l with
  | nil => split <;> rfl
  | cons a l ih =>
    rw [findIdx_cons, keyed_cons a l k, keyed_cons a l k']
    by_cases ha : key a = k
    · rw [decide_eq_true ha, cond_true, modify_zero_cons, keyed_cons, hf, if_pos ha]
      by_cases hk : k' = k
      · rw [if_pos hk, if_pos (ha.trans hk.symm), Option.map_some]
      · have hne : key a ≠ k' := fun h => hk (h.symm.trans ha)
        rw [if_neg hk, if_neg hne, if_neg hne]
    · rw [decide_eq_false ha, cond_false, modify_succ_cons, keyed_cons, ih, if_neg ha]
      by_cases hk : k' = k
      · rw [if_pos hk, if_pos hk, if_neg fun h => ha (h.trans hk)]
      · rw [if_neg hk, if_neg hk]

theorem keyed_append (key : α → κ) {a : α} (h : keyed key l (key a) = none) (k : κ) :
    keyed key (l ++ [a]) k = if k = key a then some a else keyed key l k := by
  have hlast : keyed key [a] k = if k = key a then some a else none := by
    rw [keyed_cons]
    exact if_congr eq_comm rfl rfl
  have happend : keyed key (l ++ [a]) k = (keyed key l k).or (keyed key [a] k) := find?_append
  rw [happend, hlast]
  by_cases hk : k = key a
  · rw [if_pos hk, if_pos hk, hk, h, Option.none_or]
  · rw [if_neg hk, if_neg hk, Option.or_none]

theorem keyed_eraseP (hl : DistinctKeys key l) (k k' : κ) :
    keyed key (l.eraseP fun a => decide (key a = k)) k' =
      if k' = k then none else keyed key l k' := by
  induction l with
  | nil => split <;> rfl
  | cons a l ih =>
    obtain ⟨ha, hl⟩ := pairwise_cons.mp hl
    rw [keyed_cons]
    by_cases hak : key a = k
    · rw [eraseP_cons_of_pos (by simpa using hak)]
      by_cases hk : k' = k
      · rw [if_pos hk, keyed_eq_none]
        intro b hb he
        exact ha b hb (hak.trans (hk.symm.trans he.symm))
      · rw [if_neg hk, if_neg fun h => hk (h.symm.trans hak)]
    · rw [eraseP_cons_of_neg (by simpa using hak), keyed_cons, ih hl]
      by_cases hk : k' = k
      · rw [if_pos hk, if_pos hk, if_neg fun h => hak (h.trans hk)]
      · rw [if_neg hk, if_neg hk]

theorem DistinctKeys.append (hl : DistinctKeys key l) {a : α}
    (h : keyed key l (key a) = none) : DistinctKeys key (l ++ [a]) := by
  refine pairwise_append.mpr ⟨hl, pairwise_singleton _ _, fun b hb c hc => ?_⟩
  obtain rfl := mem_singleton.mp hc
  exact keyed_eq_none.mp h b hb

end Keyed

section Pairs

variable {α κ : Type} [BEq κ] [LawfulBEq κ] {l : List (κ × α)}

theorem lookup_of_not_mem {k : κ} (h : k ∉ l.map Prod.fst) : l.lookup k = none := by
  refine lookup_eq_none_iff.mpr (fun p hp => ?_)
  rw [bne_iff_ne]
  rintro rfl
  exact h (mem_map_of_mem hp)

theorem lookup_filter_ne [DecidableEq κ] (k other : κ) (l : List (κ × α)) :
    (l.filter fun p => p.1 ≠ other).lookup k = if k = other then none else l.lookup k := by
  induction l with
  | nil => exact (ite_self _).symm
  | cons p l ih =>
    by_cases hp : p.1 = other
    · rw [filter_cons_of_neg (by simpa using hp), ih, lookup_cons]
      by_cases hk : k = other
      · rw [if_pos hk, if_pos hk]
      · rw [if_neg hk, if_neg hk, beq_false_of_ne (hp ▸ hk)]
    · rw [filter_cons_of_pos (by simpa using hp), lookup_cons, lookup_cons, ih]
      by_cases hk : k = p.1
      · rw [hk, if_neg hp, if_neg hp]
      · rw [beq_false_of_ne hk]

end Pairs

end WvStreams.Lib
