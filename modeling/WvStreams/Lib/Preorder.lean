import Mathlib.Data.List.Infix
import Mathlib.Data.List.Nodup
import Mathlib.Data.Set.Finite.Basic

/-!
# Trees in preorder

The nodes of a tree are visited from a list of nodes that are still to come: the first of them is
visited, and its children take its place. A node is known by its path; `Child p s` says that the
tree has a branch `s` at `p`. The tree need not be finite.

`Preorder.step` is the invariant for one visit, and `Preorder.visit` for any number of them.
-/

namespace WvStreams.Lib

open List

variable {κ α : Type} (Child : List κ → κ → Prop)

/-- The paths that lead through the tree from its root. -/
inductive Descends : List κ → Prop where
  | root : Descends []
  | child {p : List κ} {s : κ} (h : Descends p) (hs : Child p s) : Descends (p ++ [s])

/-- Where a node has a path in front of it, this path was there before. -/
def ParentsFirst (paths : List (List κ)) : Prop :=
  ∀ before p after, paths = before ++ p :: after → p.dropLast = [] ∨ p.dropLast ∈ before

/-- Visits of nodes, as many as allowed, and whether no node is left. -/
def visit (expand : α → List α) : Nat → List α → List α × Bool
  | 0, _ => ([], false)
  | _ + 1, [] => ([], true)
  | n + 1, a :: work =>
    let (visited, ended) := visit expand n (expand a ++ work)
    (a :: visited, ended)

/-- The children of each node are listed, each of them once. -/
structure Expands (path : α → List κ) (expand : α → List α) : Prop where
  mem : ∀ a p, p ∈ (expand a).map path ↔ ∃ s, Child (path a) s ∧ p = path a ++ [s]
  nodup : ∀ a, ((expand a).map path).Nodup

variable {Child}

variable {p : List κ}

theorem descends_concat {s : κ} : Descends Child (p ++ [s]) ↔ Descends Child p ∧ Child p s := by
  constructor
  · intro h
    generalize hq : p ++ [s] = q at h
    cases h with
    | root => simp at hq
    | child h hs =>
      obtain ⟨rfl, he⟩ := append_inj' hq rfl
      obtain rfl := singleton_inj.mp he
      exact ⟨h, hs⟩
  · rintro ⟨h, hs⟩
    exact .child h hs

theorem Descends.of_append {q : List κ} (h : Descends Child (p ++ q)) : Descends Child p := by
  induction q using reverseRecOn with
  | nil => rwa [append_nil] at h
  | append_singleton q s ih =>
    rw [← append_assoc] at h
    exact ih (descends_concat.mp h).1

theorem ParentsFirst.concat {paths : List (List κ)} (h : ParentsFirst paths)
    (hp : p.dropLast = [] ∨ p.dropLast ∈ paths) : ParentsFirst (paths ++ [p]) := by
  intro before q after he
  rcases eq_nil_or_concat after with rfl | ⟨after, last, rfl⟩
  · obtain ⟨rfl, hlast⟩ := append_inj' he rfl
    obtain rfl := singleton_inj.mp hlast
    exact hp
  · have he' : paths ++ [p] = (before ++ q :: after) ++ [last] := by
      rw [he, concat_eq_append, append_assoc, cons_append]
    obtain ⟨rfl, -⟩ := append_inj' he' rfl
    exact h before q after rfl

/-- Neither of the paths is in front of the other. -/
def Apart (p q : List κ) : Prop := ¬ p <+: q ∧ ¬ q <+: p

/-- A child of a node is apart from the paths that the node is apart from. -/
theorem Apart.child {q : List κ} (h : Apart p q) (s : κ) : Apart (p ++ [s]) q := by
  constructor
  · exact fun hpre => h.1 ((prefix_append p [s]).trans hpre)
  · intro hpre
    rcases prefix_concat_iff.mp hpre with rfl | hpre
    · exact h.1 (prefix_append p [s])
    · exact h.2 hpre

/-- The paths that were visited, and the nodes that are still to come with all below them. -/
structure Preorder (path : α → List κ) (Child : List κ → κ → Prop) (visited : List (List κ))
    (work : List α) : Prop where
  nodup : visited.Nodup
  descends : ∀ p ∈ visited, p ≠ [] ∧ Descends Child p
  parents : ParentsFirst visited
  work_descends : ∀ a ∈ work, path a ≠ [] ∧ Descends Child (path a)
  work_parents : ∀ a ∈ work, (path a).dropLast = [] ∨ (path a).dropLast ∈ visited
  apart : work.Pairwise fun a b => Apart (path a) (path b)
  fresh : ∀ a ∈ work, ∀ p ∈ visited, ¬ path a <+: p
  cover : ∀ p, p ≠ [] → Descends Child p → p ∈ visited ∨ ∃ a ∈ work, path a <+: p

namespace Preorder

variable {path : α → List κ} {expand : α → List α} {visited : List (List κ)} {work : List α}

theorem mem_expand (h : Expands Child path expand) {a b : α} (hb : b ∈ expand a) :
    ∃ s, Child (path a) s ∧ path b = path a ++ [s] :=
  (h.mem a (path b)).mp (mem_map_of_mem hb)

theorem exists_expand (h : Expands Child path expand) {a : α} {s : κ} (hs : Child (path a) s) :
    ∃ b ∈ expand a, path b = path a ++ [s] :=
  mem_map.mp ((h.mem a _).mpr ⟨s, hs, rfl⟩)

theorem apart_expand (h : Expands Child path expand) (a : α) :
    (expand a).Pairwise fun b c => Apart (path b) (path c) := by
  apply (pairwise_map.mp (h.nodup a)).imp_of_mem
  intro b c hb hc hne
  obtain ⟨s, -, hpath⟩ := mem_expand h hb
  obtain ⟨t, -, hpath'⟩ := mem_expand h hc
  have hlen : (path b).length = (path c).length := by
    rw [hpath, hpath', length_append, length_append]
    rfl
  exact ⟨fun hpre => hne (hpre.eq_of_length hlen),
    fun hpre => hne (hpre.eq_of_length hlen.symm).symm⟩

theorem cover_expand (h : Expands Child path expand) {a : α} {p : List κ}
    (hp : Descends Child p) (hpre : path a <+: p) : p = path a ∨ ∃ b ∈ expand a, path b <+: p := by
  obtain ⟨q, rfl⟩ := hpre
  cases q with
  | nil => exact .inl (append_nil _)
  | cons s q =>
    have hsplit : path a ++ s :: q = (path a ++ [s]) ++ q := by simp
    rw [hsplit] at hp ⊢
    obtain ⟨b, hb, hpath⟩ := exists_expand h (descends_concat.mp hp.of_append).2
    exact .inr ⟨b, hb, hpath ▸ prefix_append _ q⟩

theorem start (h : Expands Child path expand) {a : α} (ha : path a = []) :
    Preorder path Child [] (expand a) := by
  constructor
  · exact nodup_nil
  · exact nofun
  · intro before p after he
    simp at he
  · intro b hb
    obtain ⟨s, hs, hpath⟩ := mem_expand h hb
    rw [hpath]
    exact ⟨by simp, .child (ha ▸ .root) hs⟩
  · intro b hb
    obtain ⟨s, -, hpath⟩ := mem_expand h hb
    rw [hpath, dropLast_concat, ha]
    exact .inl rfl
  · exact apart_expand h a
  · exact nofun
  · intro p hne hp
    rcases cover_expand h hp (ha ▸ nil_prefix) with rfl | hcover
    · exact absurd ha hne
    · exact .inr hcover

theorem step (h : Expands Child path expand) {a : α} (hw : Preorder path Child visited (a :: work)) :
    Preorder path Child (visited ++ [path a]) (expand a ++ work) := by
  obtain ⟨hne, hdescends⟩ := hw.work_descends a mem_cons_self
  obtain ⟨hapart, hwork⟩ := pairwise_cons.mp hw.apart
  have hnew : path a ∉ visited := fun hmem =>
    hw.fresh a mem_cons_self _ hmem (prefix_refl _)
  have hold : ∀ {b}, b ∈ work → b ∈ a :: work := mem_cons_of_mem a
  constructor
  · rw [nodup_append]
    refine ⟨hw.nodup, nodup_singleton _, ?_⟩
    rintro p hp q hq rfl
    exact hnew (mem_singleton.mp hq ▸ hp)
  · rw [forall_mem_append, forall_mem_singleton]
    exact ⟨hw.descends, hne, hdescends⟩
  · exact hw.parents.concat (hw.work_parents a mem_cons_self)
  · intro b hb
    rcases mem_append.mp hb with hb | hb
    · obtain ⟨s, hs, hpath⟩ := mem_expand h hb
      rw [hpath]
      exact ⟨by simp, .child hdescends hs⟩
    · exact hw.work_descends b (hold hb)
  · intro b hb
    rcases mem_append.mp hb with hb | hb
    · obtain ⟨s, -, hpath⟩ := mem_expand h hb
      rw [hpath, dropLast_concat]
      exact .inr (mem_append_right _ (mem_singleton_self _))
    · exact (hw.work_parents b (hold hb)).imp_right (mem_append_left _)
  · rw [pairwise_append]
    refine ⟨apart_expand h a, hwork, fun b hb c hc => ?_⟩
    obtain ⟨s, -, hpath⟩ := mem_expand h hb
    rw [hpath]
    exact Apart.child (hapart c hc) s
  · intro b hb p hp hpre
    rcases mem_append.mp hb with hb | hb
    · obtain ⟨s, -, hpath⟩ := mem_expand h hb
      rw [hpath] at hpre
      rcases mem_append.mp hp with hp | hp
      · exact hw.fresh a mem_cons_self p hp ((prefix_append _ [s]).trans hpre)
      · -- a child is not in front of its parent
        rw [mem_singleton.mp hp] at hpre
        have hlen := hpre.length_le
        rw [length_append] at hlen
        exact absurd hlen (Nat.not_succ_le_self _)
    · rcases mem_append.mp hp with hp | hp
      · exact hw.fresh b (hold hb) p hp hpre
      · rw [mem_singleton.mp hp] at hpre
        exact (hapart b hb).2 hpre
  · intro p hpne hp
    rcases hw.cover p hpne hp with hmem | ⟨b, hb, hpre⟩
    · exact .inl (mem_append_left _ hmem)
    · rcases mem_cons.mp hb with rfl | hb
      · rcases cover_expand h hp hpre with rfl | ⟨c, hc, hpre⟩
        · exact .inl (mem_append_right _ (mem_singleton_self _))
        · exact .inr ⟨c, mem_append_left _ hc, hpre⟩
      · exact .inr ⟨b, mem_append_right _ hb, hpre⟩

/-- Any number of visits. When no node is left, all the nodes were visited. -/
theorem visits (h : Expands Child path expand) (hw : Preorder path Child visited work) (n : Nat) :
    ∃ work', Preorder path Child (visited ++ (visit expand n work).1.map path) work' ∧
      ((visit expand n work).2 = true → work' = []) := by
  induction n generalizing visited work with
  | zero =>
    refine ⟨work, ?_, nofun⟩
    rw [visit, map_nil, append_nil]
    exact hw
  | succ n ih =>
    cases work with
    | nil =>
      refine ⟨[], ?_, fun _ => rfl⟩
      rw [visit, map_nil, append_nil]
      exact hw
    | cons a work =>
      obtain ⟨work', hwork', hended⟩ := ih (hw.step h)
      rw [append_assoc] at hwork'
      exact ⟨work', hwork', hended⟩

theorem length_le (hw : Preorder path Child visited work)
    (hfinite : {p | p ≠ [] ∧ Descends Child p}.Finite) :
    visited.length ≤ hfinite.toFinset.card := by
  classical
  rw [← toFinset_card_of_nodup hw.nodup]
  exact Finset.card_le_card fun p hp =>
    hfinite.mem_toFinset.mpr (hw.descends p (mem_toFinset.mp hp))

theorem complete (hw : Preorder path Child visited ([] : List α)) {p : List κ} (hne : p ≠ [])
    (hp : Descends Child p) : p ∈ visited := by
  rcases hw.cover p hne hp with hmem | ⟨a, ha, -⟩
  · exact hmem
  · cases ha

end Preorder

section

variable {path : α → List κ} {expand : α → List α}

theorem length_visit {n : Nat} {work : List α} (h : (visit expand n work).2 = false) :
    (visit expand n work).1.length = n := by
  induction n generalizing work with
  | zero => rfl
  | succ n ih =>
    cases work with
    | nil => cases h
    | cons a work => exact congrArg (· + 1) (ih h)

theorem exists_ended (h : Expands Child path expand) {a : α} (ha : path a = [])
    (hfinite : {p | p ≠ [] ∧ Descends Child p}.Finite) :
    ∃ n, (visit expand n (expand a)).2 = true := by
  by_contra hnot
  have hfalse : ∀ n, (visit expand n (expand a)).2 = false := by
    intro n
    rw [← Bool.not_eq_true]
    exact fun htrue => hnot ⟨n, htrue⟩
  obtain ⟨work', hvisits, -⟩ := (Preorder.start h ha).visits h (hfinite.toFinset.card + 1)
  have hle := hvisits.length_le hfinite
  -- more paths were visited than there are
  rw [nil_append, length_map, length_visit (hfalse _)] at hle
  exact absurd hle (Nat.not_succ_le_self _)

end

end WvStreams.Lib
