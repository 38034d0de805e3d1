import Mathlib.Data.List.Forall2
import WvStreams.Lib.PathMap

/-!
# Mounted maps

Partial maps on paths stand one over another. A path belongs to the map mounted last of those
at or above it (`owner`), whether or not that has the path. A path that belongs to none is seen
if a map stands below it.

`Led` says that each map has the paths that lead to what stands over it. With it, what is seen
(`look`) can also be told from the children that the owners have (`look_concat_iff`). It is kept
by what only adds paths (`Led.grown`), by a removal that nothing stands below (`Led.remove`),
by a mount at a path that was made first (`Led.mount`), and, where nothing hides what is to be
made, when a mount is taken away (`Led.unmount`).
-/

namespace WvStreams.Lib

open List Option

/-- A map that stands at a path. -/
structure Mounted (κ β : Type) where
  path : List κ
  map : PathMap κ β

namespace Mounted

variable {κ β : Type}

def value (m : Mounted κ β) (p : List κ) : Option β := m.map (p.drop m.path.length)

/-- The map has all paths that it had. -/
structure Grown (m n : Mounted κ β) : Prop where
  path : m.path = n.path
  map : ∀ p, m.map p ≠ none → n.map p ≠ none

theorem Grown.refl (m : Mounted κ β) : m.Grown m := ⟨rfl, fun _ h => h⟩

theorem Grown.trans {m n o : Mounted κ β} (h : m.Grown n) (h' : n.Grown o) : m.Grown o :=
  ⟨h.path.trans h'.path, fun p hp => h'.map p (h.map p hp)⟩

theorem Grown.value {m n : Mounted κ β} (h : m.Grown n) {p : List κ} (hp : m.value p ≠ none) :
    n.value p ≠ none := by
  unfold Mounted.value
  rw [← h.path]
  exact h.map _ hp

/-- What is stored in the map, for a path that is not above its own. -/
def store [DecidableEq κ] (d : β) (q : List κ) (v : Option β) (m : Mounted κ β) : Mounted κ β :=
  { m with map := m.map.assign d (q.drop m.path.length) v }

theorem value_concat {m : Mounted κ β} (hclosed : m.map.Closed) {p : List κ} (hp : m.path <+: p)
    {s : κ} (h : m.value (p ++ [s]) ≠ none) : m.value p ≠ none := by
  intro hnone
  apply h
  unfold value at hnone ⊢
  rw [drop_append_of_le_length hp.length_le]
  exact hclosed _ _ hnone

end Mounted

/-- What stands over what, the last mounted first. -/
abbrev Mounts (κ β : Type) := List (Mounted κ β)

namespace Mounts

variable {κ β : Type}

variable {p q : List κ} {l l' : Mounts κ β} {o m : Mounted κ β} {f : Mounted κ β → Mounted κ β}

theorem not_concat_above (h : q <+: p) (s : κ) : ¬ p ++ [s] <+: q := by
  intro hs
  have hle := (hs.trans h).length_le
  rw [length_append, length_singleton] at hle
  omega

theorem exists_child (h : p <+: q) (hne : p ≠ q) : ∃ s, p ++ [s] <+: q := by
  obtain ⟨r, rfl⟩ := h
  cases r with
  | nil => exact absurd (append_nil p).symm hne
  | cons s r => exact ⟨s, r, by rw [append_assoc, singleton_append]⟩

/-- Before the owner of the path, something is mounted at this child of it or below. -/
def Leads : Mounts κ β → List κ → κ → Prop
  | [], _, _ => False
  | m :: l, p, s => p ++ [s] <+: m.path ∨ ¬ m.path <+: p ∧ Leads l p s

variable [DecidableEq κ]

def owner (l : Mounts κ β) (p : List κ) : Option (Mounted κ β) := l.find? fun m => m.path <+: p

theorem owner_cons_pos (h : m.path <+: p) (l : Mounts κ β) : owner (m :: l) p = some m := by
  unfold owner
  exact find?_cons_of_pos (by simpa using h)

theorem owner_cons_neg (h : ¬ m.path <+: p) (l : Mounts κ β) : owner (m :: l) p = owner l p := by
  unfold owner
  exact find?_cons_of_neg (by simpa using h)

theorem owner_above (h : owner l p = some o) : o.path <+: p := by
  simpa using find?_some h

theorem owner_eq_none : owner l p = none ↔ ∀ m ∈ l, ¬ m.path <+: p := by
  rw [owner, find?_eq_none]
  simp

theorem owner_append (l r : Mounts κ β) (p : List κ) :
    owner (l ++ r) p = (owner l p).or (owner r p) := find?_append

/-- What belongs to a map has its children there, apart from those at which something stands. -/
theorem owner_concat (h : owner l p = some o) (s : κ) : owner l (p ++ [s]) = some o ∨
      ∃ m, owner l (p ++ [s]) = some m ∧ m.path = p ++ [s] ∧ Leads l p s := by
  induction l with
  | nil => cases h
  | cons m l ih =>
    by_cases hm : m.path <+: p
    · left
      rw [owner_cons_pos hm] at h
      rw [owner_cons_pos (hm.trans (prefix_append p [s])), h]
    · by_cases hs : m.path <+: p ++ [s]
      · have hpath := (prefix_concat_iff.mp hs).resolve_right hm
        right
        refine ⟨m, owner_cons_pos hs l, hpath, .inl ?_⟩
        rw [hpath]
      · rw [owner_cons_neg hm] at h
        rw [owner_cons_neg hs]
        rcases ih h with hself | ⟨m', hm', hpath, hleads⟩
        · exact .inl hself
        · exact .inr ⟨m', hm', hpath, .inr ⟨hm, hleads⟩⟩

theorem leads_iff (h : owner l p = none) (s : κ) : Leads l p s ↔ ∃ m ∈ l, p ++ [s] <+: m.path := by
  induction l with
  | nil => simp [Leads]
  | cons m l ih =>
    obtain ⟨hm, hl⟩ := forall_mem_cons.mp (owner_eq_none.mp h)
    rw [Leads, ih (owner_eq_none.mpr hl), exists_mem_cons_iff]
    exact or_congr_right (and_iff_right hm)

open Classical in
/-- The value of the owner, or `d` above what is mounted on nothing. -/
noncomputable def look (d : β) (l : Mounts κ β) (p : List κ) : Option β :=
  match owner l p with
  | some o => o.value p
  | none => if ∃ s, Leads l p s then some d else none

theorem look_some (d : β) (h : owner l p = some o) : look d l p = o.value p := by
  rw [look, h]

theorem look_none (d : β) (h : owner l p = none) : look d l p ≠ none ↔ ∃ s, Leads l p s := by
  rw [look, h]
  simp

/-- Each map has the paths to what was mounted over it. -/
def Led : Mounts κ β → Prop
  | [] => True
  | m :: l => (∀ p s, p ++ [s] <+: m.path → ∀ o, owner l p = some o → o.value (p ++ [s]) ≠ none) ∧
      Led l

/-- Every map has its root, save one that stands at the root. -/
def Rooted (l : Mounts κ β) : Prop := ∀ m ∈ l, m.path ≠ [] → m.map [] ≠ none

theorem Led.value_ne_none (h : Led l) {s : κ} (hs : Leads l p s) (ho : owner l p = some o) :
    o.value (p ++ [s]) ≠ none := by
  induction l with
  | nil => cases ho
  | cons m l ih =>
    have hm : ¬ m.path <+: p := by
      rcases hs with hs | hs
      · exact fun hpre => not_concat_above hpre s hs
      · exact hs.1
    rw [owner_cons_neg hm] at ho
    rcases hs with hs | hs
    · exact h.1 p s hs o ho
    · exact ih h.2 hs.2 ho

theorem Rooted.value_ne_none (h : Rooted l) (hp : p ≠ []) (hm : owner l p = some m)
    (hpath : m.path = p) : m.value p ≠ none := by
  subst hpath
  unfold Mounted.value
  rw [drop_length]
  exact h m (mem_of_find?_eq_some hm) hp

/-- A path is seen or not, whether the question stops at what stands below it or not. -/
theorem look_ne_none_iff (d : β) (hled : Led l) (hclosed : ∀ m ∈ l, m.map.Closed) (p : List κ) :
    look d l p ≠ none ↔ (∃ o, owner l p = some o ∧ o.value p ≠ none) ∨ ∃ s, Leads l p s := by
  cases h : owner l p with
  | none => simp [look_none d h]
  | some o =>
    rw [look_some d h]
    constructor
    · exact fun hv => .inl ⟨o, rfl, hv⟩
    · rintro (⟨o', ho', hv⟩ | ⟨s, hs⟩)
      · cases ho'
        exact hv
      · exact Mounted.value_concat (hclosed o (mem_of_find?_eq_some h)) (owner_above h)
          (hled.value_ne_none hs h)

/-- The children of a path that belongs to a map are those that the map has. -/
theorem look_concat_iff (d : β) (hled : Led l) (hroot : Rooted l) (h : owner l p = some o) (s : κ) :
    look d l (p ++ [s]) ≠ none ↔ o.value (p ++ [s]) ≠ none := by
  rcases owner_concat h s with hself | ⟨m, hm, hpath, hleads⟩
  · rw [look_some d hself]
  · rw [look_some d hm]
    have hseen := hroot.value_ne_none (concat_ne_nil s p) hm hpath
    exact iff_of_true hseen (hled.value_ne_none hleads h)

theorem look_concat_none_iff (d : β) (hroot : Rooted l) (h : owner l p = none) (s : κ) :
    look d l (p ++ [s]) ≠ none ↔ ∃ m ∈ l, p ++ [s] <+: m.path := by
  cases ho : owner l (p ++ [s]) with
  | none =>
    rw [look_none d ho]
    constructor
    · rintro ⟨t, ht⟩
      obtain ⟨m, hm, hpre⟩ := (leads_iff ho t).mp ht
      exact ⟨m, hm, (prefix_append _ _).trans hpre⟩
    · rintro ⟨m, hm, hpre⟩
      have hne : p ++ [s] ≠ m.path := fun e => owner_eq_none.mp ho m hm (e ▸ prefix_refl _)
      obtain ⟨t, ht⟩ := exists_child hpre hne
      exact ⟨t, (leads_iff ho t).mpr ⟨m, hm, ht⟩⟩
  | some o =>
    have hm := mem_of_find?_eq_some ho
    have hpath := (prefix_concat_iff.mp (owner_above ho)).resolve_right
      (owner_eq_none.mp h o hm)
    rw [look_some d ho]
    have hseen := hroot.value_ne_none (concat_ne_nil s p) ho hpath
    exact iff_of_true hseen ⟨o, hm, hpath ▸ prefix_refl _⟩

theorem look_ne_none_of_concat (d : β) (hled : Led l) (hroot : Rooted l)
    (hclosed : ∀ m ∈ l, m.map.Closed) {s : κ} (h : look d l (p ++ [s]) ≠ none) :
    look d l p ≠ none := by
  cases ho : owner l p with
  | none =>
    obtain ⟨m, hm, hpre⟩ := (look_concat_none_iff d hroot ho s).mp h
    exact (look_none d ho).mpr ⟨s, (leads_iff ho s).mpr ⟨m, hm, hpre⟩⟩
  | some o =>
    rw [look_some d ho]
    exact Mounted.value_concat (hclosed o (mem_of_find?_eq_some ho)) (owner_above ho)
      ((look_concat_iff d hled hroot ho s).mp h)

/-- The same mounts, and no map has lost a path. -/
abbrev Grown : Mounts κ β → Mounts κ β → Prop := List.Forall₂ Mounted.Grown

omit [DecidableEq κ] in
theorem grown_refl (l : Mounts κ β) : Grown l l := forall₂_same.mpr fun m _ => .refl m

omit [DecidableEq κ] in
theorem Grown.trans {l'' : Mounts κ β} (h : Grown l l') (h' : Grown l' l'') : Grown l l'' := by
  induction h generalizing l'' with
  | nil =>
    cases h'
    exact .nil
  | cons hm _ ih =>
    cases h' with
    | cons hm' hl' => exact .cons (hm.trans hm') (ih hl')

omit [DecidableEq κ] in
theorem Grown.paths (h : Grown l l') : l.map Mounted.path = l'.map Mounted.path := by
  induction h with
  | nil => rfl
  | cons hm _ ih => rw [map_cons, map_cons, hm.path, ih]

theorem Grown.owner (h : Grown l l') (ho : owner l' p = some o) :
    ∃ m, Mounts.owner l p = some m ∧ m.Grown o := by
  induction h with
  | nil => cases ho
  | @cons m m' l l' hm _ ih =>
    by_cases hp : m'.path <+: p
    · rw [owner_cons_pos hp] at ho
      cases ho
      exact ⟨m, owner_cons_pos (hm.path ▸ hp) l, hm⟩
    · rw [owner_cons_neg hp] at ho
      rw [owner_cons_neg (hm.path ▸ hp)]
      exact ih ho

theorem Led.grown (h : Grown l l') (hled : Led l) : Led l' := by
  induction h with
  | nil => trivial
  | cons hm hl ih =>
    refine ⟨fun p s hs o ho => ?_, ih hled.2⟩
    obtain ⟨o', ho', hgrown⟩ := Grown.owner hl ho
    exact hgrown.value (hled.1 p s (hm.path ▸ hs) o' ho')

omit [DecidableEq κ] in
theorem Rooted.grown (h : Grown l l') (hroot : Rooted l) : Rooted l' := by
  induction h with
  | nil => exact nofun
  | cons hm hl ih =>
    obtain ⟨hhead, htail⟩ := forall_mem_cons.mp hroot
    refine forall_mem_cons.mpr ⟨fun hne => hm.map [] (hhead (hm.path ▸ hne)), ih htail⟩

def modify (f : Mounted κ β → Mounted κ β) (p : List κ) : Mounts κ β → Mounts κ β
  | [] => []
  | m :: l => if m.path <+: p then f m :: l else m :: modify f p l

theorem modify_of_none (f : Mounted κ β → Mounted κ β) (h : owner l p = none) :
    modify f p l = l := by
  induction l with
  | nil => rfl
  | cons m l ih =>
    obtain ⟨hm, hl⟩ := forall_mem_cons.mp (owner_eq_none.mp h)
    rw [modify, if_neg hm, ih (owner_eq_none.mpr hl)]

theorem modify_congr {g : Mounted κ β → Mounted κ β} (h : ∀ o, owner l p = some o → f o = g o) :
    modify f p l = modify g p l := by
  induction l with
  | nil => rfl
  | cons m l ih =>
    by_cases hp : m.path <+: p
    · rw [modify, if_pos hp, modify, if_pos hp, h m (owner_cons_pos hp l)]
    · rw [modify, if_neg hp, modify, if_neg hp, ih fun o ho => h o ((owner_cons_neg hp l).trans ho)]

theorem grown_modify (hf : ∀ m : Mounted κ β, m.Grown (f m)) (p : List κ) (l : Mounts κ β) :
    Grown l (modify f p l) := by
  induction l with
  | nil => exact .nil
  | cons m l ih =>
    unfold modify
    split
    · exact .cons (hf m) (grown_refl l)
    · exact .cons (.refl m) ih

theorem owner_modify (hf : ∀ m, (f m).path = m.path) (h : owner (modify f p l) q = some o) :
    owner l q = some o ∨ ∃ m, o = f m ∧ owner l q = some m ∧ owner l p = some m := by
  induction l with
  | nil => cases h
  | cons m l ih =>
    by_cases hp : m.path <+: p
    · rw [modify, if_pos hp] at h
      by_cases hq : m.path <+: q
      · rw [owner_cons_pos ((hf m).symm ▸ hq)] at h
        exact .inr ⟨m, (some.inj h).symm, owner_cons_pos hq l, owner_cons_pos hp l⟩
      · rw [owner_cons_neg ((hf m).symm ▸ hq)] at h
        rw [owner_cons_neg hq]
        exact .inl h
    · rw [modify, if_neg hp] at h
      by_cases hq : m.path <+: q
      · rw [owner_cons_pos hq] at h ⊢
        exact .inl h
      · rw [owner_cons_neg hq] at h ⊢
        rw [owner_cons_neg hp]
        exact ih h

theorem owner_modify_self (hf : ∀ m, (f m).path = m.path) (h : owner l p = some m) :
    owner (modify f p l) p = some (f m) := by
  induction l with
  | nil => cases h
  | cons m' l ih =>
    by_cases hp : m'.path <+: p
    · rw [owner_cons_pos hp] at h
      obtain rfl := some.inj h
      rw [modify, if_pos hp]
      exact owner_cons_pos ((hf m').symm ▸ hp) l
    · rw [owner_cons_neg hp] at h
      rw [modify, if_neg hp, owner_cons_neg hp]
      exact ih h

omit [DecidableEq κ] in
theorem prefix_drop_iff {a : List κ} (hp : a <+: p) (hq : a <+: q) :
    p.drop a.length <+: q.drop a.length ↔ p <+: q := by
  obtain ⟨r, rfl⟩ := hp
  obtain ⟨t, rfl⟩ := hq
  rw [drop_left, drop_left, prefix_append_right_inj]

theorem Led.remove (d : β) (h : Led l) (hp : ∀ s, ¬ Leads l p s) :
    Led (modify (Mounted.store d p none) p l) := by
  induction l with
  | nil => trivial
  | cons m l ih =>
    by_cases hm : m.path <+: p
    · rw [modify, if_pos hm]
      exact h
    · rw [modify, if_neg hm]
      refine ⟨fun q s hs o ho => ?_, ih h.2 fun s hs => hp s (.inr ⟨hm, hs⟩)⟩
      rcases owner_modify (f := Mounted.store d p none) (fun _ => rfl) ho with
        ho | ⟨o, rfl, ho, hop⟩
      · exact h.1 q s hs o ho
      · have hpre : ¬ p <+: q ++ [s] := by
          intro hpre
          have hne : p ≠ m.path := fun e => hm (e ▸ prefix_refl _)
          obtain ⟨t, ht⟩ := exists_child (hpre.trans hs) hne
          exact hp t (.inl ht)
        have hoq : o.path <+: q ++ [s] := (owner_above ho).trans (prefix_append _ _)
        have hkeep : (o.store d p none).value (q ++ [s]) = o.value (q ++ [s]) :=
          if_neg fun hdrop => hpre ((prefix_drop_iff (owner_above hop) hoq).mp hdrop)
        rw [hkeep]
        exact h.1 q s hs o ho

theorem Rooted.remove (d : β) (h : Rooted l) (hp : ∀ o, owner l p = some o → o.path = p → p = []) :
    Rooted (modify (Mounted.store d p none) p l) := by
  induction l with
  | nil => exact h
  | cons m l ih =>
    obtain ⟨hm, hl⟩ := forall_mem_cons.mp h
    by_cases hpre : m.path <+: p
    · rw [modify, if_pos hpre]
      refine forall_mem_cons.mpr ⟨fun hne => ?_, hl⟩
      have hroot : (m.store d p none).map [] = m.map [] := by
        apply if_neg
        intro hdrop
        have hlen := drop_eq_nil_iff.mp (prefix_nil.mp hdrop)
        have hself := hpre.eq_of_length_le hlen
        exact hne (hself.trans (hp m (owner_cons_pos hpre l) hself))
      rw [hroot]
      exact hm hne
    · rw [modify, if_neg hpre]
      refine forall_mem_cons.mpr ⟨hm, ih hl fun o ho => hp o ?_⟩
      rw [owner_cons_neg hpre]
      exact ho

theorem assign_some_ne_none (d : β) {m : PathMap κ β} (k : List κ) (v : β) (hp : m p ≠ none) :
    m.assign d k (some v) p ≠ none := by
  dsimp only [PathMap.assign]
  split_ifs
  · exact some_ne_none _
  · exact some_ne_none _
  · exact hp

theorem grown_store (d : β) (q : List κ) (v : β) (m : Mounted κ β) :
    m.Grown (m.store d q (some v)) :=
  ⟨rfl, fun _ hp => assign_some_ne_none d _ v hp⟩

/-- Make a path in the map that `p` belongs to. -/
def ensure (d : β) (p q : List κ) (l : Mounts κ β) : Mounts κ β :=
  match owner l p with
  | none => l
  | some o => if (o.value q).isNone then modify (Mounted.store d q (some d)) p l else l

theorem grown_ensure (d : β) (p q : List κ) (l : Mounts κ β) : Grown l (ensure d p q l) := by
  unfold ensure
  split
  · exact grown_refl l
  · split
    · exact grown_modify (grown_store d q d) p l
    · exact grown_refl l

theorem ensure_spec {d : β} (h : owner (ensure d p q l) p = some o) : o.value q ≠ none := by
  unfold ensure at h
  cases hm : owner l p with
  | none =>
    rw [hm] at h
    rw [hm] at h
    cases h
  | some m =>
    rw [hm] at h
    dsimp only at h
    split at h
    · rw [owner_modify_self (f := Mounted.store d q (some d)) (fun _ => rfl) hm] at h
      cases h
      have hself : (m.store d q (some d)).value q = some d := PathMap.assign_some_self _ _ _ _
      rw [hself]
      exact some_ne_none d
    · next hv =>
      rw [hm] at h
      cases h
      simpa using hv

/-- Make the paths from `p` down, each in the map that it belongs to. -/
def points (d : β) : List κ → List κ → Mounts κ β → Mounts κ β
  | _, [], l => l
  | p, s :: k, l => points d (p ++ [s]) k (ensure d (p ++ [s]) (p ++ [s]) l)

/-- Make the paths to `k`, and `k` in the map that the path above it belongs to. -/
def lead (d : β) (k : List κ) (l : Mounts κ β) : Mounts κ β :=
  ensure d k.dropLast k (points d [] k l)

structure Reached (l : Mounts κ β) (k : List κ) : Prop where
  each : ∀ p, p ≠ [] → p <+: k → ∀ o, owner l p = some o → o.value p ≠ none
  last : ∀ o, owner l k.dropLast = some o → o.value k ≠ none

theorem Reached.grown (h : Grown l l') {k : List κ} (hk : Reached l k) : Reached l' k := by
  constructor
  · intro p hp hpre o ho
    obtain ⟨m, hm, hgrown⟩ := h.owner ho
    exact hgrown.value (hk.each p hp hpre m hm)
  · intro o ho
    obtain ⟨m, hm, hgrown⟩ := h.owner ho
    exact hgrown.value (hk.last m hm)

theorem grown_points (d : β) (p k : List κ) (l : Mounts κ β) : Grown l (points d p k l) := by
  induction k generalizing p l with
  | nil => exact grown_refl l
  | cons s k ih => exact (grown_ensure d _ _ l).trans (ih _ _)

theorem grown_lead (d : β) (k : List κ) (l : Mounts κ β) : Grown l (lead d k l) :=
  (grown_points d [] k l).trans (grown_ensure d _ _ _)

theorem points_spec (d : β) {k : List κ} (l : Mounts κ β) (hq : q ≠ []) (hpre : q <+: k)
    (ho : owner (points d p k l) (p ++ q) = some o) : o.value (p ++ q) ≠ none := by
  induction k generalizing p q l with
  | nil => exact absurd (prefix_nil.mp hpre) hq
  | cons s k ih =>
    obtain ⟨t, q, rfl⟩ := exists_cons_of_ne_nil hq
    obtain ⟨rfl, hrest⟩ := cons_prefix_cons.mp hpre
    rw [points] at ho
    cases q with
    | nil =>
      obtain ⟨m, hm, hgrown⟩ := (grown_points d _ k _).owner ho
      exact hgrown.value (ensure_spec hm)
    | cons u q =>
      have happ : p ++ t :: u :: q = p ++ [t] ++ u :: q := by
        rw [append_assoc, singleton_append]
      rw [happ] at ho ⊢
      exact ih _ (cons_ne_nil u q) hrest ho

theorem reached_lead (d : β) (k : List κ) (l : Mounts κ β) : Reached (lead d k l) k := by
  constructor
  · intro p hp hpre o ho
    obtain ⟨m, hm, hgrown⟩ := (grown_ensure d _ _ _).owner ho
    exact hgrown.value (points_spec d (p := []) l hp hpre hm)
  · exact fun o ho => ensure_spec ho

theorem Led.mount (h : Led l) (hm : Reached l m.path) : Led (m :: l) := by
  refine ⟨fun p s hs o ho => ?_, h⟩
  rcases owner_concat ho s with hself | ⟨-, -, -, hleads⟩
  · exact hm.each _ (concat_ne_nil s p) hs o hself
  · exact h.value_ne_none hleads ho

def Above (p q : List κ) : Prop := p <+: q ∧ p ≠ q

instance (p q : List κ) : Decidable (Above p q) := inferInstanceAs (Decidable (_ ∧ _))

omit [DecidableEq κ] in
theorem Above.concat {s : κ} (h : p ++ [s] <+: q) : Above p q := by
  refine ⟨(prefix_append p [s]).trans h, ?_⟩
  rintro rfl
  exact not_concat_above (prefix_refl p) s h

/-- The way to a mount that stays is not hidden by what was mounted later, or nothing older than
the mount that goes is above it. -/
def Bare (newer older : List (List κ)) (k : List κ) : Prop :=
  (∀ t ∈ newer, ¬ Above t k) ∨ ∀ y ∈ older, ¬ Above y k

instance (newer older : List (List κ)) (k : List κ) : Decidable (Bare newer older k) :=
  inferInstanceAs (Decidable (_ ∨ _))

theorem Led.of_reached (zs : Mounts κ β) {xs ys : Mounts κ β} (h : Led (xs ++ m :: ys))
    (hxs : ∀ as k bs, xs.map Mounted.path = as ++ k :: bs →
      Above m.path k → Reached (zs ++ (xs ++ ys)) k ∧
        Bare (zs.map Mounted.path ++ as) (ys.map Mounted.path) k) : Led (xs ++ ys) := by
  induction xs generalizing zs with
  | nil => exact h.2
  | cons x xs ih =>
    rw [cons_append] at h ⊢
    have hled : Led (xs ++ ys) := by
      apply ih (zs ++ [x]) h.2
      intro as k bs he habove
      obtain ⟨hreached, hbare⟩ := hxs (x.path :: as) k bs (by rw [map_cons, he, cons_append]) habove
      constructor
      · rwa [append_assoc, singleton_append]
      · rwa [map_append, map_singleton, append_assoc, singleton_append]
    refine ⟨fun p s hs o ho => ?_, hled⟩
    cases hp : owner xs p with
    | some o' =>
      -- the path belongs to a newer map, as before
      rw [owner_append, hp, some_or] at ho
      cases ho
      apply h.1 p s hs o
      rw [owner_append, hp, some_or]
    | none =>
      have hys : owner ys p = some o := by
        rw [owner_append, hp, none_or] at ho
        exact ho
      by_cases hm : m.path <+: p
      · have habove : Above p x.path := .concat hs
        obtain ⟨hreached, hbare⟩ := hxs [] x.path _ rfl ⟨hm.trans habove.1, by
          rintro e
          exact not_concat_above hm s (e ▸ hs)⟩
        rw [append_nil] at hbare
        have hoy : Above o.path x.path := ⟨(owner_above hys).trans habove.1, by
          rintro e
          exact not_concat_above (owner_above hys) s (e ▸ hs)⟩
        have hzs : ∀ t ∈ zs, ¬ Above t.path x.path :=
          fun t ht => hbare.resolve_right (fun hno => hno o.path
            (mem_map_of_mem (mem_of_find?_eq_some hys)) hoy) t.path
              (mem_map_of_mem ht)
        have hwhole : ∀ q, Above q x.path →
            owner (zs ++ (x :: xs ++ ys)) q = owner (xs ++ ys) q := by
          intro q hq
          have hzsq : owner zs q = none := by
            rw [owner_eq_none]
            intro t ht hpre
            apply hzs t ht
            refine ⟨hpre.trans hq.1, ?_⟩
            intro e
            exact hq.2 (hq.1.eq_of_length_le (e ▸ hpre.length_le))
          rw [owner_append, hzsq, none_or]
          apply owner_cons_neg
          intro hpre
          exact hq.2 (hq.1.eq_of_length_le hpre.length_le)
        by_cases hlast : p ++ [s] = x.path
        · rw [hlast]
          apply hreached.last o
          rw [← hlast, dropLast_concat, hwhole p habove, ho]
        · rcases owner_concat ho s with hself | ⟨-, -, -, hleads⟩
          · apply hreached.each _ (concat_ne_nil s p) hs
            rw [hwhole _ ⟨hs, hlast⟩, hself]
          · exact hled.value_ne_none hleads ho
      · apply h.1 p s hs o
        rw [owner_append, hp, none_or, owner_cons_neg hm, hys]

open Mounted

/-- A mount is taken away, and the paths are made to all that was mounted over it. -/
theorem Led.unmount {xs ys : Mounts κ β} (h : Led (xs ++ m :: ys)) (hl : Grown (xs ++ ys) l)
    (hxs : ∀ as k bs, xs.map path = as ++ k :: bs →
      Above m.path k → Reached l k ∧ Bare as (ys.map path) k) : Led l := by
  have hnewer : Grown xs (l.take xs.length) := by
    have htake := forall₂_take xs.length hl
    rwa [take_left] at htake
  have holder : Grown ys (l.drop xs.length) := by
    have hdrop := forall₂_drop xs.length hl
    rwa [drop_left] at hdrop
  rw [← take_append_drop xs.length l] at hxs ⊢
  apply Led.of_reached [] (m := m)
  · exact h.grown (rel_append hnewer (.cons (.refl m) holder))
  · rw [← hnewer.paths, ← holder.paths]
    exact hxs

end Mounts

end WvStreams.Lib
