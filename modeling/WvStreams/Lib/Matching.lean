import Mathlib.Data.List.Basic

/-!
# Two sorted lists side by side

`matching` walks through two lists that are sorted by the same comparison and says of each element
if the other list has an equal one. `Matched.Sound` and `exists_left`, `exists_right` say that it
is right and leaves nothing out.
-/

namespace WvStreams.Lib

open List

/-- An element of the first list only, of the second one only, or of both. -/
inductive Matched (α : Type) where
  | left (a : α)
  | right (b : α)
  | both (a b : α)

namespace Matched

variable {α β : Type}

def fst? : Matched α → Option α
  | left a => some a
  | right _ => none
  | both a _ => some a

def snd? : Matched α → Option α
  | left _ => none
  | right b | both _ b => some b

def map (f g : α → β) : Matched α → Matched β
  | left a => left (f a)
  | right b => right (g b)
  | both a b => both (f a) (g b)

theorem fst?_map (f g : α → β) (m : Matched α) : (m.map f g).fst? = m.fst?.map f := by
  cases m <;> rfl

theorem snd?_map (f g : α → β) (m : Matched α) : (m.map f g).snd? = m.snd?.map g := by
  cases m <;> rfl

/-- The element is where it is said to be, and only there. -/
def Sound (cmp : α → α → Ordering) (as bs : List α) : Matched α → Prop
  | left a => a ∈ as ∧ ∀ b ∈ bs, cmp a b ≠ .eq
  | right b => b ∈ bs ∧ ∀ a ∈ as, cmp a b ≠ .eq
  | both a b => a ∈ as ∧ b ∈ bs ∧ cmp a b = .eq

end Matched

section Matching

variable {α : Type} (cmp : α → α → Ordering)

/-- What is left of one list comes when the other one is at its end. -/
def matching : List α → List α → List (Matched α)
  | [], bs => bs.map .right
  | a :: as, [] => (a :: as).map .left
  | a :: as, b :: bs =>
    match cmp a b with
    | .lt => .left a :: matching as (b :: bs)
    | .gt => .right b :: matching (a :: as) bs
    | .eq => .both a b :: matching as bs
termination_by as bs => as.length + bs.length

/-- Each element comes before the ones behind it. -/
def Ascending (l : List α) : Prop := l.Pairwise fun a b => cmp a b = .lt

variable {cmp}

theorem exists_left {as bs : List α} {a : α} (h : a ∈ as) :
    ∃ m ∈ matching cmp as bs, m.fst? = some a := by
  fun_induction matching cmp as bs with
  | case1 bs => cases h
  | case2 a' as => exact ⟨.left a, mem_map_of_mem h, rfl⟩
  | case3 a' as b bs hlt ih =>
    rcases mem_cons.mp h with rfl | h
    · exact ⟨.left a, mem_cons_self, rfl⟩
    · obtain ⟨m, hm, hfst⟩ := ih h
      exact ⟨m, mem_cons_of_mem _ hm, hfst⟩
  | case4 a' as b bs hgt ih =>
    obtain ⟨m, hm, hfst⟩ := ih h
    exact ⟨m, mem_cons_of_mem _ hm, hfst⟩
  | case5 a' as b bs heq ih =>
    rcases mem_cons.mp h with rfl | h
    · exact ⟨.both a b, mem_cons_self, rfl⟩
    · obtain ⟨m, hm, hfst⟩ := ih h
      exact ⟨m, mem_cons_of_mem _ hm, hfst⟩

theorem exists_right {as bs : List α} {b : α} (h : b ∈ bs) :
    ∃ m ∈ matching cmp as bs, m.snd? = some b := by
  fun_induction matching cmp as bs with
  | case1 bs => exact ⟨.right b, mem_map_of_mem h, rfl⟩
  | case2 a as => cases h
  | case3 a as b' bs hlt ih =>
    obtain ⟨m, hm, hsnd⟩ := ih h
    exact ⟨m, mem_cons_of_mem _ hm, hsnd⟩
  | case4 a as b' bs hgt ih =>
    rcases mem_cons.mp h with rfl | h
    · exact ⟨.right b, mem_cons_self, rfl⟩
    · obtain ⟨m, hm, hsnd⟩ := ih h
      exact ⟨m, mem_cons_of_mem _ hm, hsnd⟩
  | case5 a as b' bs heq ih =>
    rcases mem_cons.mp h with rfl | h
    · exact ⟨.both a b, mem_cons_self, rfl⟩
    · obtain ⟨m, hm, hsnd⟩ := ih h
      exact ⟨m, mem_cons_of_mem _ hm, hsnd⟩

namespace Matched

variable {m : Matched α} {a b : α} {as bs : List α}

theorem Sound.cons_left (h : m.Sound cmp as bs) (hne : ∀ b ∈ bs, cmp a b ≠ .eq) :
    m.Sound cmp (a :: as) bs := by
  cases m with
  | left a' => exact ⟨mem_cons_of_mem a h.1, h.2⟩
  | right b => exact ⟨h.1, forall_mem_cons.mpr ⟨hne b h.1, h.2⟩⟩
  | both a' b => exact ⟨mem_cons_of_mem a h.1, h.2⟩

theorem Sound.cons_right (h : m.Sound cmp as bs) (hne : ∀ a ∈ as, cmp a b ≠ .eq) :
    m.Sound cmp as (b :: bs) := by
  cases m with
  | left a => exact ⟨h.1, forall_mem_cons.mpr ⟨hne a h.1, h.2⟩⟩
  | right b' => exact ⟨mem_cons_of_mem b h.1, h.2⟩
  | both a b' => exact ⟨h.1, mem_cons_of_mem b h.2.1, h.2.2⟩

theorem Sound.cons_both (h : m.Sound cmp as bs) (hleft : ∀ b ∈ bs, cmp a b ≠ .eq)
    (hright : ∀ a ∈ as, cmp a b ≠ .eq) : m.Sound cmp (a :: as) (b :: bs) := by
  cases m with
  | left a' =>
    exact ⟨mem_cons_of_mem a h.1, forall_mem_cons.mpr ⟨hright a' h.1, h.2⟩⟩
  | right b' =>
    exact ⟨mem_cons_of_mem b h.1, forall_mem_cons.mpr ⟨hleft b' h.1, h.2⟩⟩
  | both a' b' => exact ⟨mem_cons_of_mem a h.1, mem_cons_of_mem b h.2.1, h.2.2⟩

end Matched

variable [Std.TransCmp cmp]

open Std

/-- A first element that comes before a whole list is equal to none of it. -/
theorem Ascending.ne_of_lt {a b : α} {bs : List α} (hbs : Ascending cmp (b :: bs))
    (h : cmp a b = .lt) : ∀ b' ∈ b :: bs, cmp a b' ≠ .eq := by
  intro b' hb' heq
  rcases mem_cons.mp hb' with rfl | hb'
  · rw [h] at heq
    cases heq
  · rw [TransCmp.lt_trans h (rel_of_pairwise_cons hbs hb')] at heq
    cases heq

theorem ascending_mergeSort {l : List α} (h : l.Pairwise fun a b => cmp a b ≠ .eq) :
    Ascending cmp (l.mergeSort fun a b => cmp a b != .gt) := by
  have hle : ∀ {a b}, (cmp a b != .gt) = true ↔ (cmp a b).isLE = true := by
    intro a b
    cases cmp a b <;> decide
  have hsorted : (l.mergeSort fun a b => cmp a b != .gt).Pairwise fun a b =>
      (cmp a b != .gt) = true := by
    apply pairwise_mergeSort
    · intro a b c hab hbc
      exact hle.mpr (TransCmp.isLE_trans (hle.mp hab) (hle.mp hbc))
    · intro a b
      have hswap : cmp b a = (cmp a b).swap := OrientedCmp.eq_swap
      rw [Bool.or_eq_true, hle, hle, hswap]
      cases cmp a b <;> decide
  have hdistinct : (l.mergeSort fun a b => cmp a b != .gt).Pairwise fun a b => cmp a b ≠ .eq :=
    h.perm (mergeSort_perm _ _).symm fun hab heq => hab (OrientedCmp.eq_symm heq)
  apply (hsorted.and hdistinct).imp
  rintro a b ⟨hab, hne⟩
  cases hcmp : cmp a b with
  | lt => rfl
  | eq => exact absurd hcmp hne
  | gt =>
    rw [hcmp] at hab
    cases hab

theorem matching_sound {as bs : List α} (has : Ascending cmp as) (hbs : Ascending cmp bs) :
    ∀ m ∈ matching cmp as bs, m.Sound cmp as bs := by
  fun_induction matching cmp as bs with
  | case1 bs =>
    intro m hm
    obtain ⟨b, hb, rfl⟩ := mem_map.mp hm
    exact ⟨hb, nofun⟩
  | case2 a as =>
    intro m hm
    obtain ⟨a', ha', rfl⟩ := mem_map.mp hm
    exact ⟨ha', nofun⟩
  | case3 a as b bs hlt ih =>
    refine forall_mem_cons.mpr ⟨⟨mem_cons_self, hbs.ne_of_lt hlt⟩, fun m hm => ?_⟩
    exact (ih (Pairwise.of_cons has) hbs m hm).cons_left (hbs.ne_of_lt hlt)
  | case4 a as b bs hgt ih =>
    have hne : ∀ a' ∈ a :: as, cmp a' b ≠ .eq := fun a' ha' heq =>
      has.ne_of_lt (OrientedCmp.lt_of_gt hgt) a' ha' (OrientedCmp.eq_symm heq)
    refine forall_mem_cons.mpr ⟨⟨mem_cons_self, hne⟩, fun m hm => ?_⟩
    exact (ih has (Pairwise.of_cons hbs) m hm).cons_right hne
  | case5 a as b bs heq ih =>
    -- what is left of the one list lies behind the first element of the other
    have hleft : ∀ b' ∈ bs, cmp a b' ≠ .eq := by
      intro b' hb' h
      rw [TransCmp.lt_of_eq_of_lt heq (rel_of_pairwise_cons hbs hb')] at h
      cases h
    have hright : ∀ a' ∈ as, cmp a' b ≠ .eq := by
      intro a' ha' h
      have hlt : cmp b a' = .lt :=
        TransCmp.lt_of_eq_of_lt (OrientedCmp.eq_symm heq) (rel_of_pairwise_cons has ha')
      rw [OrientedCmp.gt_of_lt hlt] at h
      cases h
    refine forall_mem_cons.mpr ⟨⟨mem_cons_self, mem_cons_self, heq⟩, fun m hm => ?_⟩
    exact (ih (Pairwise.of_cons has) (Pairwise.of_cons hbs) m hm).cons_both hleft hright

end Matching

end WvStreams.Lib
