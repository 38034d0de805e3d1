import WvStreams.Lib.PathMap

/-!
# Subtrees that are copied

A subtree of a map is stored at another path: its own path first, and then the paths below it, each
behind its parent. `graft` is the map once some of them are done. As parents come first, a path
is created only by its own store (`graft_store`), so that a path that was there before can be told
from one that was created meanwhile (`graft_skip`). When the paths are all done the map is `copied`.
-/

namespace WvStreams.Lib.PathMap

open Function List

variable {κ β : Type} [DecidableEq κ]

/-- The new value, or the old one if there was one and the new one is not forced. -/
def merge (force : Bool) (old new : Option β) : Option β := if force then new else old.or new

def Nested (src dst : List κ) : Prop := (src <+: dst ∨ dst <+: src) ∧ src ≠ dst

section Graft

variable (d : β) (m : PathMap κ β) (src dst : List κ) (force : Bool)

/-- The map once the top and the paths `done` below it are copied. -/
def graft (done : List (List κ)) : PathMap κ β := fun p =>
  let old := assign d m dst (m src) p
  if dst <+: p ∧ p.drop dst.length ∈ done then merge force old (m (src ++ p.drop dst.length))
  else old

/-- The map once all that is below `src` is copied. -/
def copied : PathMap κ β := fun p =>
  let old := assign d m dst (m src) p
  let new := m (src ++ p.drop dst.length)
  if dst <+: p ∧ p ≠ dst ∧ new.isSome then merge force old new else old

end Graft

variable {d : β} {m : PathMap κ β} {src dst : List κ} {force : Bool} {done : List (List κ)}
  {v w : β} {p q : List κ}

theorem graft_nil : graft d m src dst force [] = assign d m dst (m src) :=
  funext fun _ => if_neg fun h => absurd h.2 not_mem_nil

theorem graft_below (q : List κ) : graft d m src dst force done (dst ++ q) =
    if q ∈ done then merge force (assign d m dst (m src) (dst ++ q)) (m (src ++ q))
    else assign d m dst (m src) (dst ++ q) := by
  simp only [graft, prefix_append, true_and, drop_left]

theorem graft_other (hp : ¬ dst <+: p) :
    graft d m src dst force done p = assign d m dst (m src) p :=
  if_neg fun h => hp h.1

theorem top_below (hsrc : m src = some v) (hq : q ≠ []) :
    assign d m dst (m src) (dst ++ q) = m (dst ++ q) := by
  rw [hsrc]
  refine assign_some_other d m v fun hpre => hq ?_
  have hlen := hpre.length_le
  rw [length_append] at hlen
  exact eq_nil_of_length_eq_zero (by omega)

theorem assign_self (hclosed : m.Closed) (k : List κ) : assign d m k (m k) = m := by
  cases hk : m k with
  | none => exact hclosed.prune_of_none hk
  | some v =>
    have hup : ∀ p, p <+: k → p ≠ k → m p ≠ none := by
      rintro p ⟨q, rfl⟩ - hnone
      rw [hclosed p q hnone] at hk
      contradiction
    rw [assign_of_ancestors d hup, ← hk, update_eq_self]

theorem graft_src (hclosed : m.Closed) (hapart : ¬ Nested src dst) (q : List κ) :
    graft d m src dst force done (src ++ q) = m (src ++ q) := by
  by_cases hsame : src = dst
  · subst hsame
    rw [graft_below, assign_self hclosed]
    split
    · cases m (src ++ q) with
      | none | some v => cases force <;> rfl
    · rfl
  · have hsrc : ¬ src <+: dst := fun h => hapart ⟨Or.inl h, hsame⟩
    have hdst : ¬ dst <+: src := fun h => hapart ⟨Or.inr h, hsame⟩
    have hout : ¬ dst <+: src ++ q := fun h =>
      (List.prefix_or_prefix_of_prefix h (prefix_append src q)).elim hdst hsrc
    have hin : ¬ src ++ q <+: dst := fun h => hsrc ((prefix_append src q).trans h)
    rw [graft_other hout]
    cases m src with
    | none => exact if_neg hout
    | some v => exact assign_some_other d m v hin

theorem graft_fresh (hsrc : m src = some v) (hq : q ≠ []) (hnew : q ∉ done) :
    graft d m src dst force done (dst ++ q) = m (dst ++ q) := by
  rw [graft_below, if_neg hnew, top_below hsrc hq]

theorem graft_concat (hsrc : m src = some v) (hq : q ≠ []) :
    graft d m src dst force (done ++ [q]) =
      update (graft d m src dst force done) (dst ++ q)
        (merge force (m (dst ++ q)) (m (src ++ q))) := by
  funext p
  by_cases hp : p = dst ++ q
  · subst hp
    rw [update_self, graft_below, if_pos (by simp), top_below hsrc hq]
  · rw [update_of_ne hp]
    by_cases hpre : dst <+: p
    · obtain ⟨r, rfl⟩ := hpre
      have hr : r ≠ q := fun h => hp (h ▸ rfl)
      rw [graft_below, graft_below]
      simp [hr]
    · rw [graft_other hpre, graft_other hpre]

theorem merge_ne_none {old new : Option β} (h : new ≠ none) : merge force old new ≠ none := by
  obtain ⟨x, rfl⟩ := Option.ne_none_iff_exists'.mp h
  cases force with
  | false => cases old <;> exact Option.some_ne_none _
  | true => exact Option.some_ne_none x

theorem graft_ne_none (hsrc : m src = some v) (hdone : q = [] ∨ q ∈ done)
    (hq : m (src ++ q) ≠ none) : graft d m src dst force done (dst ++ q) ≠ none := by
  rw [graft_below]
  split
  · exact merge_ne_none hq
  · next hnot =>
    obtain rfl := hdone.resolve_right hnot
    rw [append_nil, hsrc, assign_some_self]
    exact Option.some_ne_none v

theorem graft_store (hclosed : (graft d m src dst force done).Closed) (hsrc : m src = some v)
    (hq : q ≠ []) (hparent : q.dropLast = [] ∨ q.dropLast ∈ done)
    (hup : m (src ++ q.dropLast) ≠ none) (hw : m (src ++ q) = some w)
    (hforce : force = true ∨ m (dst ++ q) = none) :
    assign d (graft d m src dst force done) (dst ++ q) (some w) =
      graft d m src dst force (done ++ [q]) := by
  have hthere : graft d m src dst force done (dst ++ q.dropLast) ≠ none :=
    graft_ne_none hsrc hparent hup
  have hancestors : ∀ p, p <+: dst ++ q → p ≠ dst ++ q → graft d m src dst force done p ≠ none := by
    intro p hp hne hnone
    rw [← dropLast_concat_getLast hq, ← append_assoc, prefix_concat_iff,
      append_assoc, dropLast_concat_getLast hq] at hp
    obtain ⟨r, hr⟩ := hp.resolve_left hne
    rw [← hr] at hthere
    exact hthere (hclosed p r hnone)
  have hmerge : merge force (m (dst ++ q)) (m (src ++ q)) = some w := by
    rw [hw]
    rcases hforce with rfl | hnone
    · rfl
    · rw [hnone]
      cases force <;> rfl
  rw [graft_concat hsrc hq, hmerge]
  exact assign_of_ancestors d hancestors w

theorem graft_skip (hsrc : m src = some v) (hq : q ≠ []) (hnew : q ∉ done) (hforce : force = false)
    (hold : m (dst ++ q) ≠ none) :
    graft d m src dst force (done ++ [q]) = graft d m src dst force done := by
  obtain ⟨x, hx⟩ := Option.ne_none_iff_exists'.mp hold
  have hmerge : merge force (m (dst ++ q)) (m (src ++ q)) = m (dst ++ q) := by
    rw [hforce, hx]
    rfl
  rw [graft_concat hsrc hq, hmerge, ← graft_fresh hsrc hq hnew, update_eq_self]

theorem graft_all (hdone : ∀ q, q ∈ done ↔ q ≠ [] ∧ m (src ++ q) ≠ none) :
    graft d m src dst force done = copied d m src dst force := by
  funext p
  by_cases hpre : dst <+: p
  · obtain ⟨q, rfl⟩ := hpre
    have hiff : (dst <+: dst ++ q ∧ dst ++ q ≠ dst ∧ (m (src ++ q)).isSome) ↔ q ∈ done := by
      rw [hdone, Option.isSome_iff_ne_none]
      simp
    simp only [copied, drop_left]
    rw [graft_below]
    exact if_congr hiff.symm rfl rfl
  · rw [graft_other hpre]
    exact (if_neg fun h => hpre h.1).symm

theorem copied_top (d : β) (dst : List κ) (force : Bool) (hsrc : m src = some v) :
    copied d m src dst force dst = some v := by
  rw [copied, if_neg fun h => h.2.1 rfl, hsrc, assign_some_self]

theorem copied_below (d : β) (dst : List κ) (force : Bool) (hsrc : m src = some v) (hq : q ≠ [])
    (hw : m (src ++ q) = some w) : copied d m src dst force (dst ++ q) =
      if force = true ∨ m (dst ++ q) = none then some w else m (dst ++ q) := by
  have hbelow : dst <+: dst ++ q ∧ dst ++ q ≠ dst ∧ (some w).isSome :=
    ⟨prefix_append dst q, by simpa using hq, rfl⟩
  simp only [copied, drop_left, hw, top_below hsrc hq]
  rw [if_pos hbelow]
  cases force with
  | true => rfl
  | false =>
    cases m (dst ++ q) with
    | none => rfl
    | some x => rfl

theorem copied_missing (d : β) (dst : List κ) (force : Bool) (hsrc : m src = some v)
    (hnone : m (src ++ q) = none) : copied d m src dst force (dst ++ q) = m (dst ++ q) := by
  have hq : q ≠ [] := by
    rintro rfl
    rw [append_nil, hsrc] at hnone
    contradiction
  simp only [copied, drop_left, hnone, top_below hsrc hq]
  exact if_neg fun h => absurd h.2.2 Bool.false_ne_true

theorem copied_other (hp : ¬ dst <+: p) : copied d m src dst force p = assign d m dst (m src) p :=
  if_neg fun h => hp h.1

theorem copied_none (d : β) (dst : List κ) (force : Bool) (hnone : ∀ q, m (src ++ q) = none) :
    copied d m src dst force = m.prune dst := by
  have hsrc : m src = none := by simpa using hnone []
  funext p
  rw [copied, hnone, hsrc]
  exact if_neg fun h => absurd h.2.2 Bool.false_ne_true

/-- What is at the new place is removed, all is copied there, and the old place is removed. -/
def moved (d : β) (m : PathMap κ β) (src dst : List κ) : PathMap κ β :=
  prune (copied d (m.prune dst) src dst true) src

section Moved

variable (hsrc : ¬ src <+: dst) (hdst : ¬ dst <+: src)
include hsrc hdst

theorem prune_src (q : List κ) : m.prune dst (src ++ q) = m (src ++ q) :=
  if_neg fun h =>
    (List.prefix_or_prefix_of_prefix h (prefix_append src q)).elim hdst hsrc

theorem prune_top : m.prune dst src = m src := by
  have hpruned := prune_src (m := m) hsrc hdst []
  rwa [append_nil] at hpruned

theorem moved_below (hclosed : m.Closed) (q : List κ) :
    moved d m src dst (dst ++ q) = m (src ++ q) := by
  have hout : ¬ src <+: dst ++ q := fun h =>
    (List.prefix_or_prefix_of_prefix h (prefix_append dst q)).elim hsrc hdst
  have hgone : m.prune dst (dst ++ q) = none := if_pos (prefix_append dst q)
  have htop := prune_top (m := m) hsrc hdst
  have hbelow := prune_src (m := m) hsrc hdst
  rw [moved, prune, if_neg hout]
  cases hv : m src with
  | none =>
    rw [copied_none d dst true fun q => (hbelow q).trans (hclosed src q hv), hclosed src q hv]
    exact if_pos (prefix_append dst q)
  | some v =>
    rw [hv] at htop
    cases hw : m (src ++ q) with
    | none => rw [copied_missing d dst true htop ((hbelow q).trans hw), hgone]
    | some w =>
      by_cases hq : q = []
      · subst hq
        rw [append_nil] at hw ⊢
        rw [copied_top d dst true (hw ▸ hv ▸ htop)]
      · rw [copied_below d dst true htop hq ((hbelow q).trans hw), if_pos (Or.inl rfl)]

theorem moved_ancestor (hv : m src = some v) (hp : p <+: dst) (hne : p ≠ dst) :
    moved d m src dst p = some ((m p).getD d) := by
  have hout : ¬ src <+: p := fun h => hsrc (h.trans hp)
  have hbelow : ¬ dst <+: p := fun h => hne (hp.eq_of_length_le h.length_le)
  rw [moved, prune, if_neg hout, copied_other hbelow, prune_top hsrc hdst, hv,
    assign_some_ancestor d _ v hp hne, prune, if_neg hbelow]

theorem moved_other (hout : ¬ dst <+: p) (hout' : ¬ src <+: p)
    (hancestor : m src ≠ none → ¬ p <+: dst) : moved d m src dst p = m p := by
  rw [moved, prune, if_neg hout', copied_other hout, prune_top hsrc hdst]
  cases hv : m src with
  | none => rw [assign_none, prune, if_neg hout, prune, if_neg hout]
  | some v =>
    rw [assign_some_other d _ v (hancestor (hv ▸ Option.some_ne_none v)), prune, if_neg hout]

end Moved

end WvStreams.Lib.PathMap
