import Mathlib.Data.List.Infix
import Mathlib.Logic.Function.Basic

/-!
# Partial maps on paths

A tree of named values is seen from outside as a partial map from paths to values.
This file has the operations on such maps that do not depend on how the tree is
stored:

* `assign d m k v` is what a store does: it gives `k` a value and creates every missing
  ancestor with the value `d`, or it removes `k` with everything below it;
* `mirror m notes` is what an observer does who only hears of changes: a removal deletes
  the key and everything below it, a value is written at the key alone;
* `Steps m notes m'` says that `notes` lists the single-key changes leading from `m` to
  `m'`, each changed key once, a removal coming only when nothing is left below its key.
-/

namespace WvStreams.Lib

open Function List

abbrev PathMap (κ β : Type) := List κ → Option β

/-- The announcement that a path now has a value, or none. -/
abbrev Note (κ β : Type) := List κ × Option β

namespace PathMap

variable {κ β : Type}

def below (m : PathMap κ β) (s : κ) : PathMap κ β := fun p => m (s :: p)

def under (m : PathMap κ β) (k : List κ) : PathMap κ β := fun p => m (k ++ p)

/-- Whatever has a value has a value at every ancestor. -/
def Closed (m : PathMap κ β) : Prop := ∀ p q, m p = none → m (p ++ q) = none

@[simp] theorem below_apply (m : PathMap κ β) (s : κ) (p : List κ) : m.below s p = m (s :: p) := rfl

@[simp] theorem under_apply (m : PathMap κ β) (k p : List κ) : m.under k p = m (k ++ p) := rfl

@[simp] theorem under_nil (m : PathMap κ β) : m.under [] = m := rfl

theorem under_append (m : PathMap κ β) (k l : List κ) : m.under (k ++ l) = (m.under k).under l := by
  funext p
  simp

variable [DecidableEq κ]

def put (m : PathMap κ β) (k : List κ) (v : β) : PathMap κ β :=
  fun p => if p = k then some v else m p

def prune (m : PathMap κ β) (k : List κ) : PathMap κ β :=
  fun p => if k <+: p then none else m p

/-- Store `v` at `k`: missing ancestors are created with the value `d`, and a missing `v`
removes `k` and everything below it. -/
def assign (d : β) (m : PathMap κ β) (k : List κ) : Option β → PathMap κ β
  | none => m.prune k
  | some v => fun p => if p = k then some v else if p <+: k then some ((m p).getD d) else m p

/-- Store a list of values, one after the other. -/
def assigns (d : β) (m : PathMap κ β) (sets : List (Note κ β)) : PathMap κ β :=
  sets.foldl (fun m s => assign d m s.1 s.2) m

@[simp] theorem assign_none (d : β) (m : PathMap κ β) (k : List κ) :
    assign d m k none = m.prune k := rfl

theorem assign_some_self (d : β) (m : PathMap κ β) (k : List κ) (v : β) :
    assign d m k (some v) k = some v := by
  simp [assign]

variable {m m' : PathMap κ β} {k p : List κ} {notes sets : List (Note κ β)}

theorem assign_some_ancestor (d : β) (m : PathMap κ β) (v : β) (hp : p <+: k) (hne : p ≠ k) :
    assign d m k (some v) p = some ((m p).getD d) := by
  simp [assign, hp, hne]

theorem assign_some_other (d : β) (m : PathMap κ β) (v : β) (hp : ¬ p <+: k) :
    assign d m k (some v) p = m p := by
  have hne : p ≠ k := fun h => hp (h ▸ prefix_refl _)
  simp [assign, hp, hne]

theorem assign_of_length (d : β) (m : PathMap κ β) (h : p.length = k.length) (v : Option β) :
    assign d m k v p = if p = k then v else m p := by
  have hpre : ¬ p = k → ¬ p <+: k := fun hne hp => hne (hp.eq_of_length h)
  cases v with
  | none =>
    apply if_congr _ rfl rfl
    exact ⟨fun hk => (hk.eq_of_length h.symm).symm, fun hp => hp ▸ prefix_refl _⟩
  | some v =>
    by_cases hp : p = k
    · rw [if_pos hp, hp, assign_some_self]
    · rw [if_neg hp, assign_some_other d m v (hpre hp)]

theorem prune_cons_below (m : PathMap κ β) (s : κ) (k : List κ) :
    (m.prune (s :: k)).below s = (m.below s).prune k := by
  funext p
  simp [prune]

theorem prune_cons_below_ne (m : PathMap κ β) {s t : κ} (k : List κ) (h : t ≠ s) :
    (m.prune (s :: k)).below t = m.below t := by
  funext p
  simp [prune, h.symm]

/-- Storing below the component `s`, seen from `s`. -/
theorem assign_cons_below (d : β) (m : PathMap κ β) (s : κ) (k : List κ) (v : Option β) :
    (assign d m (s :: k) v).below s = assign d (m.below s) k v := by
  cases v with
  | none => exact prune_cons_below m s k
  | some v => funext p; simp [assign]

/-- Storing below the component `s` leaves the other components alone. -/
theorem assign_cons_below_ne (d : β) (m : PathMap κ β) {s t : κ} (k : List κ) (v : Option β)
    (h : t ≠ s) : (assign d m (s :: k) v).below t = m.below t := by
  cases v with
  | none => exact prune_cons_below_ne m k h
  | some v => funext p; simp [assign, h]

theorem assign_cons_nil (d : β) (m : PathMap κ β) (s : κ) (k : List κ) (v : β) :
    assign d m (s :: k) (some v) [] = some ((m []).getD d) := by
  simp [assign]

theorem assign_nil_below (d : β) (m : PathMap κ β) (s : κ) (v : β) :
    (assign d m [] (some v)).below s = m.below s := by
  funext p
  simp [assign]

theorem prune_cons_nil (m : PathMap κ β) (s : κ) (k : List κ) : m.prune (s :: k) [] = m [] := by
  simp [prune]

/-- What storing at `s :: k` is, told at the root, below `s` and below the other components. -/
theorem eq_assign_cons {d : β} {s : κ} {v : Option β}
    (hroot : m' [] = v.elim (m []) fun _ => some ((m []).getD d))
    (hself : m'.below s = assign d (m.below s) k v) (hother : ∀ t, t ≠ s → m'.below t = m.below t) :
    m' = assign d m (s :: k) v := by
  funext p
  cases p with
  | nil =>
    rw [hroot]
    cases v with
    | none => exact (prune_cons_nil m s k).symm
    | some v => exact (assign_cons_nil d m s k v).symm
  | cons t p =>
    by_cases h : t = s
    · subst h
      rw [← below_apply m', hself, ← assign_cons_below, below_apply]
    · rw [← below_apply m', hother t h, ← assign_cons_below_ne d m k v h, below_apply]

theorem eq_assign_nil {d : β} {v : β} (hroot : m' [] = some v)
    (hbelow : ∀ t, m'.below t = m.below t) : m' = assign d m [] (some v) := by
  funext p
  cases p with
  | nil => rw [hroot, assign_some_self]
  | cons t p => rw [← below_apply m', hbelow t, ← assign_nil_below d m t v, below_apply]

theorem prune_nil (m : PathMap κ β) : m.prune [] = fun _ => none := by
  funext p
  simp [prune]

theorem prune_of_none (h : ∀ q, m (k ++ q) = none) : m.prune k = m := by
  funext p
  simp only [prune]
  split
  · rename_i hp
    obtain ⟨q, rfl⟩ := hp
    exact (h q).symm
  · rfl

theorem Closed.prune_of_none (hm : m.Closed) (h : m k = none) : m.prune k = m :=
  PathMap.prune_of_none fun q => hm k q h

@[simp] theorem assigns_nil (d : β) (m : PathMap κ β) : assigns d m [] = m := rfl

@[simp] theorem assigns_cons (d : β) (m : PathMap κ β) (s : Note κ β) (sets : List (Note κ β)) :
    assigns d m (s :: sets) = assigns d (assign d m s.1 s.2) sets := rfl

theorem assigns_append (d : β) (m : PathMap κ β) (xs ys : List (Note κ β)) :
    assigns d m (xs ++ ys) = assigns d (assigns d m xs) ys := by
  simp [assigns, foldl_append]

/-- Storing what the map `t` has makes a map like `t` where it was like `t`, at every path
that is stored, and at missing ancestors where `t` has the value `d`. -/
theorem assigns_exact {d : β} {t : PathMap κ β} (ht : t.Closed) (hsets : ∀ s ∈ sets, s.2 = t s.1)
    (hp : m p = t p ∨ (∃ s ∈ sets, s.1 = p) ∨
      (m p = none ∧ t p = some d ∧ ∃ s ∈ sets, s.2 ≠ none ∧ p <+: s.1)) :
    assigns d m sets p = t p := by
  induction sets generalizing m with
  | nil =>
    rcases hp with h | ⟨s, hs, -⟩ | ⟨-, -, s, hs, -⟩
    · exact h
    · cases hs
    · cases hs
  | cons s sets ih =>
    obtain ⟨k, v⟩ := s
    obtain ⟨hv, hrest⟩ := forall_mem_cons.mp hsets
    have hv' : v = t k := hv
    have hlater : ∀ {P : Note κ β → Prop}, (∃ s ∈ (k, v) :: sets, P s) → ¬ P (k, v) →
        ∃ s ∈ sets, P s := by
      rintro P ⟨s, hs, hP⟩ hnot
      rcases mem_cons.mp hs with rfl | hs
      · exact absurd hP hnot
      · exact ⟨s, hs, hP⟩
    rw [assigns_cons]
    apply ih hrest
    cases v with
    | none =>
      by_cases hk : k <+: p
      · -- below a path that `t` does not have, it has nothing
        obtain ⟨q, rfl⟩ := hk
        left
        rw [ht k q hv'.symm]
        exact if_pos (prefix_append k q)
      · have hself : p ≠ k := fun e => hk (e ▸ prefix_refl _)
        have hsame : assign d m k none p = m p := if_neg hk
        rw [hsame]
        rcases hp with h | h | ⟨h, htp, hs⟩
        · exact .inl h
        · exact .inr (.inl (hlater h (Ne.symm hself)))
        · exact .inr (.inr ⟨h, htp, hlater hs fun e => e.1 rfl⟩)
    | some v =>
      by_cases hself : p = k
      · left
        rw [hself, assign_some_self]
        exact hv'
      · by_cases hpre : p <+: k
        · rw [assign_some_ancestor d m v hpre hself]
          rcases hp with h | h | ⟨h, htp, -⟩
          · left
            have htp : t p ≠ none := by
              intro hnone
              obtain ⟨q, rfl⟩ := hpre
              rw [ht p q hnone] at hv'
              cases hv'
            obtain ⟨x, hx⟩ := Option.ne_none_iff_exists'.mp htp
            rw [h, hx]
            rfl
          · exact .inr (.inl (hlater h (Ne.symm hself)))
          · left
            rw [h, htp]
            rfl
        · rw [assign_some_other d m v hpre]
          rcases hp with h | h | ⟨h, htp, hs⟩
          · exact .inl h
          · exact .inr (.inl (hlater h (Ne.symm hself)))
          · exact .inr (.inr ⟨h, htp, hlater hs fun e => hpre e.2⟩)

theorem assigns_eq {d : β} {t : PathMap κ β} (ht : t.Closed)
    (hsets : ∀ s ∈ sets, s.2 ≠ none ∧ s.2 = t s.1)
    (hp : m p = t p ∨ (∃ s ∈ sets, s.1 = p) ∨ (m p = none ∧ t p = some d ∧ ∃ s ∈ sets, p <+: s.1)) :
    assigns d m sets p = t p := by
  apply assigns_exact ht fun s hs => (hsets s hs).2
  rcases hp with h | h | ⟨h, htp, s, hs, hpre⟩
  · exact .inl h
  · exact .inr (.inl h)
  · exact .inr (.inr ⟨h, htp, s, hs, (hsets s hs).1, hpre⟩)

/-- At a path that is not stored, a map stays as it is, or the path is created for one below
it or removed with one above it. -/
theorem assigns_of_not_mem (d : β) (m : PathMap κ β) (hp : ∀ s ∈ sets, s.1 ≠ p) :
    assigns d m sets p = m p ∨ (assigns d m sets p = some d ∧ ∃ s ∈ sets, s.2 ≠ none ∧ p <+: s.1) ∨
      (assigns d m sets p = none ∧ ∃ s ∈ sets, s.2 = none) := by
  induction sets generalizing m with
  | nil => exact .inl rfl
  | cons s sets ih =>
    obtain ⟨k, v⟩ := s
    have hself : p ≠ k := fun e => hp (k, v) mem_cons_self e.symm
    rw [assigns_cons]
    have hmem : ∀ {P : Note κ β → Prop}, (∃ s ∈ sets, P s) → ∃ s ∈ (k, v) :: sets, P s :=
      fun ⟨s, hs, h⟩ => ⟨s, mem_cons_of_mem _ hs, h⟩
    rcases ih (assign d m k v) fun s hs => hp s (mem_cons_of_mem _ hs) with
      h | ⟨h, hs⟩ | ⟨h, hs⟩
    · rw [h]
      cases v with
      | none =>
        by_cases hk : k <+: p
        · exact .inr (.inr ⟨if_pos hk, (k, none), mem_cons_self, rfl⟩)
        · exact .inl (if_neg hk)
      | some v =>
        by_cases hpre : p <+: k
        · rw [assign_some_ancestor d m v hpre hself]
          cases hm : m p with
          | none =>
            exact .inr (.inl ⟨rfl, (k, some v), mem_cons_self, Option.some_ne_none v, hpre⟩)
          | some x => exact .inl rfl
        · exact .inl (assign_some_other d m v hpre)
    · exact .inr (.inl ⟨h, hmem hs⟩)
    · exact .inr (.inr ⟨h, hmem hs⟩)

theorem update_cons_below (m : PathMap κ β) (s : κ) (k : List κ) (v : Option β) :
    below (update m (s :: k) v) s = update (m.below s) k v := by
  funext p
  by_cases h : p = k
  · simp [h]
  · have h' : s :: p ≠ s :: k := by simpa using h
    rw [below_apply, update_of_ne h, update_of_ne h', below_apply]

theorem update_cons_of_ne (m : PathMap κ β) {s t : κ} (k p : List κ) (v : Option β) (h : t ≠ s) :
    update m (s :: k) v (t :: p) = m (t :: p) := by
  apply update_of_ne
  simp [h]

/-- One heard change: a value is written, a removal takes the subtree along. -/
def hear (m : PathMap κ β) (n : Note κ β) : PathMap κ β :=
  match n.2 with
  | none => m.prune n.1
  | some v => m.put n.1 v

def mirror (m : PathMap κ β) (notes : List (Note κ β)) : PathMap κ β := notes.foldl hear m

/-- The note has a say in the value at `p`. -/
def Touches (n : Note κ β) (p : List κ) : Prop := p = n.1 ∨ (n.2 = none ∧ n.1 <+: p)

@[simp] theorem mirror_nil (m : PathMap κ β) : mirror m [] = m := rfl

@[simp] theorem mirror_cons (m : PathMap κ β) (n : Note κ β) (notes : List (Note κ β)) :
    mirror m (n :: notes) = mirror (m.hear n) notes := rfl

theorem mirror_append (m : PathMap κ β) (xs ys : List (Note κ β)) :
    mirror m (xs ++ ys) = mirror (mirror m xs) ys := by
  simp [mirror, foldl_append]

theorem hear_of_touches {n : Note κ β} (h : Touches n p) : m.hear n p = n.2 := by
  obtain ⟨k, v⟩ := n
  cases v with
  | none =>
    have hk : k <+: p := by
      rcases h with rfl | ⟨-, hk⟩
      · exact prefix_refl _
      · exact hk
    simp [hear, prune, hk]
  | some v =>
    rcases h with rfl | ⟨h, -⟩
    · simp [hear, put]
    · cases h

theorem hear_of_not_touches {n : Note κ β} (h : ¬ Touches n p) : m.hear n p = m p := by
  obtain ⟨k, v⟩ := n
  simp only [Touches, not_or, not_and] at h
  cases v with
  | none => simp [hear, prune, h.2 rfl]
  | some v => simp [hear, put, h.1]

theorem hear_eq_update {v : Option β} (hleaf : v = none → ∀ q, q ≠ [] → m (k ++ q) = none) :
    m.hear (k, v) = update m k v := by
  funext p
  by_cases ht : Touches (k, v) p
  · rw [hear_of_touches ht]
    by_cases hp : p = k
    · rw [hp, update_self]
    · rcases ht with he | ⟨hv, q, hq⟩
      · exact absurd he hp
      · have hv' : v = none := hv
        have hq' : k ++ q = p := hq
        have hne : q ≠ [] := by
          intro e
          rw [e, append_nil] at hq'
          exact hp hq'.symm
        rw [update_of_ne hp, ← hq', hleaf hv' q hne]
        exact hv'
  · have hp : p ≠ k := fun e => ht (.inl e)
    rw [hear_of_not_touches ht, update_of_ne hp]

theorem mirror_of_not_touched (h : ∀ n ∈ notes, ¬ Touches n p) : mirror m notes p = m p := by
  induction notes generalizing m with
  | nil => rfl
  | cons n notes ih =>
    rw [mirror_cons, ih (fun n' hn => h n' (mem_cons_of_mem _ hn)),
      hear_of_not_touches (h n mem_cons_self)]

/-- When every note that has a say in `p` says `x`, and `p` starts with `x` or is spoken of
at all, the observer ends with `x`. -/
theorem mirror_eq_of_touched {x : Option β} (hall : ∀ n ∈ notes, Touches n p → n.2 = x)
    (hone : m p = x ∨ ∃ n ∈ notes, Touches n p) : mirror m notes p = x := by
  induction notes generalizing m with
  | nil =>
    rcases hone with h | ⟨n, hn, -⟩
    · exact h
    · cases hn
  | cons n notes ih =>
    rw [mirror_cons]
    apply ih (fun n' hn => hall n' (mem_cons_of_mem _ hn))
    by_cases ht : Touches n p
    · exact .inl ((hear_of_touches ht).trans (hall n mem_cons_self ht))
    · rw [hear_of_not_touches ht]
      rcases hone with h | ⟨n', hn', ht'⟩
      · exact .inl h
      · rcases mem_cons.mp hn' with rfl | hn'
        · exact absurd ht' ht
        · exact .inr ⟨n', hn', ht'⟩

/-- Removals that all lie below `k`, with `k` itself among them, prune the map at `k`. -/
theorem mirror_removals (hall : ∀ n ∈ notes, n.2 = none ∧ k <+: n.1) (hk : (k, none) ∈ notes) :
    mirror m notes = m.prune k := by
  funext p
  simp only [prune]
  split
  · rename_i hp
    exact mirror_eq_of_touched (fun n hn _ => (hall n hn).1)
      (.inr ⟨(k, none), hk, .inr ⟨rfl, hp⟩⟩)
  · rename_i hp
    apply mirror_of_not_touched
    rintro n hn (rfl | ⟨-, hn'⟩)
    · exact hp (hall n hn).2
    · exact hp ((hall n hn).2.trans hn')

/-- `notes` lists changes of single keys that lead from `m` to `m'`. Every note is a change
and no key is changed twice; a removal comes only when nothing is left below its key. -/
inductive Steps : PathMap κ β → List (Note κ β) → PathMap κ β → Prop
  | nil (m : PathMap κ β) : Steps m [] m
  | cons {m m' : PathMap κ β} {k : List κ} {v : Option β} {notes : List (Note κ β)}
      (hnew : m k ≠ v) (honce : ∀ n ∈ notes, n.1 ≠ k)
      (hleaf : v = none → ∀ q, q ≠ [] → m (k ++ q) = none)
      (rest : Steps (Function.update m k v) notes m') : Steps m ((k, v) :: notes) m'

namespace Steps

variable {m m' : PathMap κ β} {notes : List (Note κ β)}

theorem eq_of_not_mem (h : Steps m notes m') {p : List κ} (hp : ∀ n ∈ notes, n.1 ≠ p) :
    m' p = m p := by
  induction h with
  | nil m => rfl
  | cons hnew honce hleaf rest ih =>
    rw [ih fun n hn => hp n (mem_cons_of_mem _ hn)]
    exact update_of_ne (hp _ mem_cons_self).symm _ _

/-- A note carries the final value of its key, which differs from the first one. -/
theorem value_of_mem (h : Steps m notes m') {n : Note κ β} (hn : n ∈ notes) :
    m' n.1 = n.2 ∧ m n.1 ≠ n.2 := by
  induction h with
  | nil m => cases hn
  | cons hnew honce hleaf rest ih =>
    rcases mem_cons.mp hn with rfl | hn
    · refine ⟨?_, hnew⟩
      rw [rest.eq_of_not_mem honce]
      exact update_self _ _ _
    · obtain ⟨h1, h2⟩ := ih hn
      rw [update_of_ne (honce n hn)] at h2
      exact ⟨h1, h2⟩

/-- Storing the notes elsewhere makes a map like `m'` where it was like `m`. -/
theorem assigns_eq (d : β) {n : PathMap κ β} (h : Steps m notes m') (hm' : m'.Closed) {p : List κ}
    (hp : n p = m p) : assigns d n notes p = m' p := by
  apply assigns_exact hm' fun s hs => (h.value_of_mem hs).1.symm
  by_cases hmem : ∃ s ∈ notes, s.1 = p
  · exact .inr (.inl hmem)
  · left
    rw [hp]
    exact (h.eq_of_not_mem fun s hs he => hmem ⟨s, hs, he⟩).symm

/-- The notes of one key: none if its value is as before, else one, with the new value. -/
theorem filter_eq [DecidableEq β] (h : Steps m notes m') (p : List κ) :
    notes.filter (fun n => n.1 = p) = if m p = m' p then [] else [(p, m' p)] := by
  induction h with
  | nil m => simp
  | @cons m m' k v notes hnew honce hleaf rest ih =>
    by_cases hp : k = p
    · subst hp
      have hnil : notes.filter (fun n => n.1 = k) = [] := by
        simpa [filter_eq_nil_iff] using honce
      have hv : m' k = v := by
        rw [rest.eq_of_not_mem honce]
        exact update_self _ _ _
      simp [hnil, hv, hnew]
    · have hu : update m k v p = m p := update_of_ne (Ne.symm hp) _ _
      simpa [hp, hu] using ih

theorem removals_order (h : Steps m notes m') (hall : ∀ n ∈ notes, n.2 = none) :
    notes.Pairwise fun a b => ¬ a.1 <+: b.1 := by
  induction h with
  | nil m => exact Pairwise.nil
  | @cons m m' k v notes hnew honce hleaf rest ih =>
    have hall' : ∀ n ∈ notes, n.2 = none := fun n hn => hall n (mem_cons_of_mem _ hn)
    refine pairwise_cons.mpr ⟨?_, ih hall'⟩
    intro n hn hk
    obtain ⟨q, hq⟩ := hk
    have hq' : k ++ q = n.1 := hq
    have hne : q ≠ [] := by
      intro e
      exact honce n hn (by rw [← hq', e, append_nil])
    have hchange := (rest.value_of_mem hn).2
    rw [update_of_ne (honce n hn), hall' n hn, ← hq'] at hchange
    exact hchange (hleaf (hall (k, v) mem_cons_self) q hne)

/-- Removing, in an order that takes descendants first, all that is at or below `k`. -/
theorem prune {k : List κ} {ks : List (List κ)} (hall : ∀ p, p ∈ ks ↔ k <+: p ∧ m p ≠ none)
    (hord : ks.Pairwise fun a b => ¬ a <+: b) :
    Steps m (ks.map fun p => (p, none)) (m.prune k) := by
  induction ks generalizing m with
  | nil =>
    have hnone : ∀ q, m (k ++ q) = none := by
      intro q
      by_contra hq
      simpa using (hall (k ++ q)).mpr ⟨prefix_append _ _, hq⟩
    rw [prune_of_none hnone]
    exact nil m
  | cons a ks ih =>
    obtain ⟨hfirst, hord⟩ := pairwise_cons.mp hord
    have ha := (hall a).mp mem_cons_self
    have hmap : m.prune k = PathMap.prune (update m a none) k := by
      funext p
      by_cases hp : p = a
      · subst hp
        simp [PathMap.prune, ha.1]
      · simp [PathMap.prune, update_of_ne hp]
    rw [hmap]
    refine cons ha.2 ?_ ?_ (ih ?_ hord)
    · intro n hn he
      obtain ⟨b, hb, rfl⟩ := mem_map.mp hn
      exact hfirst b hb (he ▸ prefix_refl _)
    · intro _ q hq
      by_contra hne
      rcases mem_cons.mp ((hall (a ++ q)).mpr ⟨ha.1.trans (prefix_append _ _), hne⟩)
        with h | h
      · exact hq (by simpa using h)
      · exact hfirst _ h (prefix_append _ _)
    · intro p
      by_cases hp : p = a
      · subst hp
        have : p ∉ ks := fun h => hfirst p h (prefix_refl _)
        simp [this]
      · simpa [update_of_ne hp, hp] using hall p

end Steps

theorem assign_update_vivified (d : β) {a : List κ} (ha : m a = none) (hk : a <+: k) (hne : a ≠ k)
    (v : β) : assign d (update m a (some d)) k (some v) = assign d m k (some v) := by
  funext p
  by_cases hp : p = a
  · subst hp
    rw [assign_some_ancestor d _ v hk hne, assign_some_ancestor d _ v hk hne, ha]
    simp
  · simp [assign, update_of_ne hp]

theorem assign_apply (d : β) (h : p <+: k → p ≠ k → m p ≠ none) (v : β) :
    assign d m k (some v) p = update m k (some v) p := by
  by_cases hp : p = k
  · subst hp
    rw [assign_some_self, update_self]
  · rw [update_of_ne hp]
    by_cases hpre : p <+: k
    · rw [assign_some_ancestor d m v hpre hp]
      obtain ⟨x, hx⟩ := Option.ne_none_iff_exists'.mp (h hpre hp)
      simp [hx]
    · exact assign_some_other d m v hpre

theorem assign_of_ancestors (d : β) (h : ∀ p, p <+: k → p ≠ k → m p ≠ none) (v : β) :
    assign d m k (some v) = update m k (some v) :=
  funext fun p => assign_apply d (h p) v

/-- The notes of a value that is written below ancestors that were there, the root perhaps
created for it, write that value elsewhere too. -/
theorem Steps.assigns_write (d : β) {n : PathMap κ β} (h : Steps m notes m') (hm' : m'.Closed)
    (hk : k ≠ []) {v : β} (hwrite : ∀ p, p ≠ [] → m' p = update m k (some v) p)
    (hnew : m k ≠ some v) (hn : n.Closed) (hup : ∀ p, p ≠ [] → p <+: k → p ≠ k → n p ≠ none)
    (hp : p ≠ []) : assigns d n notes p = update n k (some v) p := by
  have hself : m' k = some v := by rw [hwrite k hk, update_self]
  -- what the notes lead to: the written value, at the root that of `m'`
  let t : PathMap κ β := fun q => if q = [] then m' [] else update n k (some v) q
  have ht : ∀ q, q ≠ [] → t q = update n k (some v) q := fun q hq => if_neg hq
  have hclosed : t.Closed := by
    intro q r hq
    by_cases hroot : q = []
    · subst hroot
      have hnone : m' [] = none := by simpa [t] using hq
      have := hm' [] k hnone
      rw [nil_append, hself] at this
      cases this
    · have hqr : q ++ r ≠ [] := by simp [hroot]
      rw [ht q hroot] at hq
      have hqk : q ≠ k := by
        rintro rfl
        rw [update_self] at hq
        cases hq
      rw [update_of_ne hqk] at hq
      have hqrk : q ++ r ≠ k := by
        rintro rfl
        exact hup q hroot (prefix_append _ _) hqk hq
      rw [ht _ hqr, update_of_ne hqrk]
      exact hn q r hq
  rw [← ht p hp]
  apply assigns_exact hclosed
  · intro s hs
    obtain ⟨hv, hchange⟩ := h.value_of_mem hs
    by_cases hroot : s.1 = []
    · rw [← hv, hroot]
      exact (if_pos rfl).symm
    · have hsk : s.1 = k := by
        by_contra hsk
        rw [hwrite _ hroot, update_of_ne hsk] at hv
        exact hchange hv
      rw [ht _ hroot, ← hv, hsk, hself, update_self]
  · by_cases hpk : p = k
    · right
      left
      by_contra hnot
      have hsame := h.eq_of_not_mem (p := k) fun s hs he => hnot ⟨s, hs, he.trans hpk.symm⟩
      exact hnew (hsame.symm.trans hself)
    · left
      rw [ht p hp, update_of_ne hpk]

end PathMap

end WvStreams.Lib
