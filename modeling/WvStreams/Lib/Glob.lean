import Mathlib.Data.List.Infix
import Mathlib.Algebra.BigOperators.Group.List.Basic
import Mathlib.Algebra.Ring.Nat

/-!
# Wildcard patterns

A pattern is a list of names, of wildcards for one name and of wildcards for any number of names.
`Matches` says which paths it is for. A search that goes down from each `many` to what is strictly
below finds a path once for each of its `ways`, which need not be one: that is so for each path
that matches if a `many` is last or not there at all (`ways_of_last`), and for no other pattern
(`exists_ways_ne_one`).
-/

namespace WvStreams.Lib

open List

/-- One name, any number of names, or the given one. -/
inductive Wild (κ : Type) where
  | one
  | many
  | lit (a : κ)
  deriving DecidableEq

namespace Wild

variable {κ : Type}

def Matches : List (Wild κ) → List κ → Prop
  | [], p => p = []
  | lit a :: w, p => ∃ q, p = a :: q ∧ Matches w q
  | one :: w, p => ∃ a q, p = a :: q ∧ Matches w q
  | many :: w, p => ∃ q, q <:+ p ∧ Matches w q

variable [DecidableEq κ]

/-- The number of ways to read a path so that each `many` takes a name, unless nothing is left of
the path and nothing but `many` of the pattern. -/
def ways : List (Wild κ) → List κ → Nat
  | [], p => if p = [] then 1 else 0
  | lit a :: w, p =>
    match p with
    | [] => 0
    | b :: q => if a = b then ways w q else 0
  | one :: w, p =>
    match p with
    | [] => 0
    | _ :: q => ways w q
  | many :: w, p =>
    (if p.isEmpty && w.all (· = many) then 1 else 0) + (p.tails.tail.map (ways w)).sum

omit [DecidableEq κ] in
theorem tail_tails_cons (a : κ) (q : List κ) : (a :: q).tails.tail = q :: q.tails.tail := by
  rw [tails_cons, tail_cons]
  cases q <;> rfl

theorem ways_lits (as : List κ) (w : List (Wild κ)) (p : List κ) :
    ways (as.map lit ++ w) (as ++ p) = ways w p := by
  induction as with
  | nil => rfl
  | cons a as ih =>
    show (if a = a then ways (as.map lit ++ w) (as ++ p) else 0) = _
    rw [if_pos rfl, ih]

variable {w : List (Wild κ)} {p : List κ}

theorem ways_lits_of_not_prefix {as : List κ} (w : List (Wild κ)) (h : ¬ as <+: p) :
    ways (as.map lit ++ w) p = 0 := by
  induction as generalizing p with
  | nil => exact absurd nil_prefix h
  | cons a as ih =>
    cases p with
    | nil => rfl
    | cons b q =>
      show (if a = b then ways (as.map lit ++ w) q else 0) = 0
      split
      · rename_i hab
        apply ih
        intro hq
        exact h (cons_prefix_cons.mpr ⟨hab, hq⟩)
      · rfl

theorem ways_many_eq (w : List (Wild κ)) (p : List κ) : ways (many :: w) p =
    (if p = [] ∧ ∀ x ∈ w, x = many then 1 else 0) + (p.tails.tail.map (ways w)).sum := by
  rw [ways]
  congr 1
  exact if_congr (by simp) rfl rfl

theorem ways_many_cons (w : List (Wild κ)) (a : κ) (q : List κ) :
    ways (many :: w) (a :: q) = ways w q + (q.tails.tail.map (ways w)).sum := by
  rw [ways_many_eq, if_neg (by simp), tail_tails_cons, map_cons, sum_cons, Nat.zero_add]

theorem ways_nil_of_all (h : ∀ x ∈ w, x = many) : ways w [] = 1 := by
  cases w with
  | nil => rfl
  | cons y w =>
    obtain ⟨rfl, hw⟩ := forall_mem_cons.mp h
    rw [ways_many_eq, if_pos ⟨rfl, hw⟩]
    rfl

omit [DecidableEq κ] in
theorem matches_of_all (h : ∀ x ∈ w, x = many) (hw : w ≠ []) (p : List κ) : Matches w p := by
  induction w with
  | nil => exact absurd rfl hw
  | cons y w ih =>
    obtain ⟨rfl, hmany⟩ := forall_mem_cons.mp h
    by_cases hnil : w = []
    · subst hnil
      exact ⟨[], nil_suffix, rfl⟩
    · exact ⟨p, suffix_refl p, ih hmany hnil⟩

omit [DecidableEq κ] in
theorem matches_lits_iff {as : List κ} : Matches (as.map lit) p ↔ p = as := by
  induction as generalizing p with
  | nil => rfl
  | cons a as ih =>
    constructor
    · rintro ⟨q, rfl, hq⟩
      rw [ih.mp hq]
    · rintro rfl
      exact ⟨as, rfl, ih.mpr rfl⟩

omit [DecidableEq κ] in
theorem many_of_matches_nil (h : Matches w []) : ∀ x ∈ w, x = many := by
  induction w with
  | nil => exact forall_mem_nil _
  | cons y w ih =>
    cases y with
    | lit a =>
      obtain ⟨q, hq, -⟩ := h
      cases hq
    | one =>
      obtain ⟨a, q, hq, -⟩ := h
      cases hq
    | many =>
      obtain ⟨q, hsuffix, hq⟩ := h
      obtain rfl := suffix_nil.mp hsuffix
      exact forall_mem_cons.mpr ⟨rfl, ih hq⟩

theorem matches_of_ways (h : ways w p ≠ 0) : Matches w p := by
  induction w generalizing p with
  | nil =>
    by_contra hp
    exact h (if_neg hp)
  | cons y w ih =>
    cases y with
    | lit a =>
      cases p with
      | nil => exact absurd rfl h
      | cons b q =>
        by_cases hab : a = b
        · rw [ways, if_pos hab] at h
          exact ⟨q, by rw [hab], ih h⟩
        · exact absurd (if_neg hab) h
    | one =>
      cases p with
      | nil => exact absurd rfl h
      | cons b q => exact ⟨b, q, rfl, ih h⟩
    | many =>
      by_cases hend : p = [] ∧ ∀ x ∈ w, x = many
      · obtain ⟨rfl, hall⟩ := hend
        exact matches_of_all (forall_mem_cons.mpr ⟨rfl, hall⟩) (cons_ne_nil _ _) []
      · rw [ways_many_eq, if_neg hend, Nat.zero_add] at h
        obtain ⟨n, hn, hne⟩ := exists_mem_ne_zero_of_sum_ne_zero h
        obtain ⟨q, hq, rfl⟩ := mem_map.mp hn
        exact ⟨q, (mem_tails q p).mp (mem_of_mem_tail hq), ih hne⟩

theorem ways_many (p : List κ) : ways [many] p = 1 := by
  induction p with
  | nil => rfl
  | cons a q ih =>
    rw [ways_many_cons]
    calc ways [] q + (q.tails.tail.map (ways [])).sum = ways [many] q := by
          rw [ways_many_eq]
          simp [ways]
      _ = 1 := ih

/-- With a `many` only in the last place there is one way at most. -/
theorem ways_of_last (hlast : many ∉ w.dropLast) (h : Matches w p) : ways w p = 1 := by
  induction w generalizing p with
  | nil => exact if_pos h
  | cons y w ih =>
    have hrest : many ∉ w.dropLast := by
      intro hmem
      cases w with
      | nil => cases hmem
      | cons z w => exact hlast (mem_cons_of_mem _ hmem)
    cases y with
    | lit a =>
      obtain ⟨q, rfl, hq⟩ := h
      rw [ways, if_pos rfl, ih hrest hq]
    | one =>
      obtain ⟨a, q, rfl, hq⟩ := h
      exact ih hrest hq
    | many =>
      cases w with
      | nil => exact ways_many p
      | cons z w => exact absurd mem_cons_self hlast

/-- The shortest path that matches, with `x` for each `one`. -/
def core (x : κ) : List (Wild κ) → List κ
  | [] => []
  | lit a :: w => a :: core x w
  | one :: w => x :: core x w
  | many :: w => core x w

omit [DecidableEq κ] in
theorem matches_core (x : κ) (w : List (Wild κ)) : Matches w (core x w) := by
  induction w with
  | nil => rfl
  | cons y w ih =>
    cases y with
    | lit a => exact ⟨_, rfl, ih⟩
    | one => exact ⟨_, _, rfl, ih⟩
    | many => exact ⟨_, suffix_refl _, ih⟩

omit [DecidableEq κ] in
theorem length_core_le (x : κ) (h : Matches w p) : (core x w).length ≤ p.length := by
  induction w generalizing p with
  | nil => exact Nat.zero_le _
  | cons y w ih =>
    cases y with
    | lit a =>
      obtain ⟨q, rfl, hq⟩ := h
      exact Nat.succ_le_succ (ih hq)
    | one =>
      obtain ⟨a, q, rfl, hq⟩ := h
      exact Nat.succ_le_succ (ih hq)
    | many =>
      obtain ⟨q, hqp, hq⟩ := h
      exact (ih hq).trans hqp.length_le

omit [DecidableEq κ] in
theorem mem_core {x a : κ} (h : a ∈ core x w) : a = x ∨ lit a ∈ w := by
  induction w with
  | nil => cases h
  | cons y w ih =>
    have hlater : a ∈ core x w → a = x ∨ lit a ∈ y :: w := fun h =>
      (ih h).imp_right (mem_cons_of_mem y)
    cases y with
    | lit b =>
      rcases mem_cons.mp h with rfl | h
      · exact Or.inr mem_cons_self
      · exact hlater h
    | one =>
      rcases mem_cons.mp h with rfl | h
      · exact Or.inl rfl
      · exact hlater h
    | many => exact hlater h

/-- With a `many` in another place some path matches that is found never or twice. -/
theorem exists_ways_ne_one (x : κ) (h : many ∈ w.dropLast) :
    ∃ p, (∀ a ∈ p, a = x ∨ lit a ∈ w) ∧ Matches w p ∧ ways w p ≠ 1 := by
  induction w with
  | nil => cases h
  | cons y w ih =>
    have hne : w ≠ [] := by
      rintro rfl
      cases h
    rw [dropLast_cons_of_ne_nil hne, mem_cons] at h
    cases y with
    | lit a =>
      obtain ⟨p, hnames, hp, hways⟩ := ih (h.resolve_left (by simp))
      refine ⟨a :: p, ?_, ⟨p, rfl, hp⟩, by rwa [ways, if_pos rfl]⟩
      refine forall_mem_cons.mpr ⟨Or.inr mem_cons_self, ?_⟩
      exact fun b hb => (hnames b hb).imp_right (mem_cons_of_mem _)
    | one =>
      obtain ⟨p, hnames, hp, hways⟩ := ih (h.resolve_left (by simp))
      refine ⟨x :: p, ?_, ⟨x, p, rfl, hp⟩, hways⟩
      refine forall_mem_cons.mpr ⟨Or.inl rfl, ?_⟩
      exact fun b hb => (hnames b hb).imp_right (mem_cons_of_mem _)
    | many =>
      by_cases hall : ∀ z ∈ w, z = many
      · -- the first `many` takes one name or both
        refine ⟨[x, x], by simp, ?_, ?_⟩
        · exact matches_of_all (forall_mem_cons.mpr ⟨rfl, hall⟩) (by simp) _
        obtain ⟨z, w, rfl⟩ := exists_cons_of_ne_nil hne
        obtain ⟨rfl, hw⟩ := forall_mem_cons.mp hall
        have h1 : ways (many :: w) [x] = 1 := by
          rw [ways_many_cons, ways_nil_of_all hw]
          rfl
        have h0 : ways (many :: w) ([] : List κ) = 1 := ways_nil_of_all hall
        rw [ways_many_cons, h1, tail_tails_cons, map_cons, sum_cons, h0]
        simp
      · -- the shortest path leaves no name for the first `many`
        refine ⟨core x w, fun a ha => mem_core (w := many :: w) ha, matches_core x (many :: w), ?_⟩
        have hzero : ((core x w).tails.tail.map (ways w)).sum = 0 := by
          apply sum_eq_zero
          intro n hn
          obtain ⟨q, hq, rfl⟩ := mem_map.mp hn
          by_contra hways
          have hlong := length_core_le x (matches_of_ways hways)
          cases hcore : core x w with
          | nil =>
            rw [hcore] at hq
            cases hq
          | cons a r =>
            rw [hcore, tail_tails_cons] at hq
            have hqr : q <:+ r := by
              rcases mem_cons.mp hq with rfl | hq
              · exact suffix_refl _
              · exact (mem_tails q r).mp (mem_of_mem_tail hq)
            rw [hcore] at hlong
            have := hqr.length_le
            simp only [length_cons] at hlong
            omega
        rw [ways_many_eq, hzero, if_neg fun hboth => hall hboth.2]
        simp

end Wild

end WvStreams.Lib
