import WvStreams.Lib.PathMap

/-!
# Forests with named branches

A forest is the list of branches of one tree node; each branch has a name, a value and
its own branches. Names are compared through `Folds.fold`, so that two spellings of one
name are the same branch; a branch keeps the spelling it was created with.

The operations are looked at through `Tree.content`, the partial map from paths of folded
names to values: `content_write` and `content_remove` identify writing and removing at a
path with `PathMap.assign`. `Forest.Proper` says that sibling names differ and are
admissible; under it the list of branches and the lookup function agree.
-/

namespace WvStreams.Lib

open List

open PathMap

/-- Spellings `σ` of the names `κ`. -/
class Folds (σ : Type) (κ : outParam Type) where
  fold : σ → κ

export Folds (fold)

/-- The branches of a node: the first one with its own branches, and the others. -/
inductive Forest (σ α : Type) where
  | nil
  | cons (key : σ) (val : α) (sub rest : Forest σ α)
  deriving DecidableEq, Repr

structure Tree (σ α : Type) where
  val : α
  kids : Forest σ α
  deriving DecidableEq, Repr

namespace Forest

variable {σ κ α : Type}

def toList : Forest σ α → List (σ × Tree σ α)
  | nil => []
  | cons key val sub rest => (key, ⟨val, sub⟩) :: rest.toList

/-- The paths of all nodes, below the path `pre`, each after those below it. -/
def postorder (pre : List σ) : Forest σ α → List (List σ)
  | nil => []
  | cons key _ sub rest =>
    sub.postorder (pre ++ [key]) ++ (pre ++ [key]) :: rest.postorder pre

def height : Forest σ α → Nat
  | nil => 0
  | cons _ _ sub rest => max (sub.height + 1) rest.height

variable [Folds σ κ] [DecidableEq κ]

def lookup : Forest σ α → κ → Option (Tree σ α)
  | nil, _ => none
  | cons key val sub rest, s => if fold key = s then some ⟨val, sub⟩ else rest.lookup s

/-- The branch's own spelling of a name, if there is such a branch. -/
def spelling : Forest σ α → σ → σ
  | nil, s => s
  | cons key _ _ rest, s => if fold key = fold s then key else rest.spelling s

/-- Replace the branch of this name, which keeps its spelling, or add one at the end. -/
def insert : Forest σ α → σ → Tree σ α → Forest σ α
  | nil, key, t => cons key t.val t.kids nil
  | cons key' val sub rest, key, t =>
    if fold key' = fold key then cons key' t.val t.kids rest
    else cons key' val sub (rest.insert key t)

def erase : Forest σ α → κ → Forest σ α
  | nil, _ => nil
  | cons key val sub rest, s =>
    if fold key = s then rest.erase s else cons key val sub (rest.erase s)

/-- Sibling names differ, and every name is admissible. -/
def Proper (ok : σ → Prop) : Forest σ α → Prop
  | nil => True
  | cons key _ sub rest =>
    ok key ∧ rest.lookup (fold key) = none ∧ sub.Proper ok ∧ rest.Proper ok

@[simp] theorem lookup_nil (s : κ) : (nil : Forest σ α).lookup s = none := rfl

theorem lookup_cons_self (key : σ) (val : α) (sub rest : Forest σ α) :
    (cons key val sub rest).lookup (fold key) = some ⟨val, sub⟩ :=
  if_pos rfl

theorem lookup_cons_of_ne {key : σ} {s : κ} (h : s ≠ fold key) (val : α) (sub rest : Forest σ α) :
    (cons key val sub rest).lookup s = rest.lookup s :=
  if_neg h.symm

@[simp] theorem fold_spelling (f : Forest σ α) (s : σ) : fold (f.spelling s) = fold s := by
  induction f with
  | nil => rfl
  | cons key val sub rest _ ih =>
    unfold spelling
    split
    · assumption
    · exact ih

theorem lookup_insert (f : Forest σ α) (key : σ) (t : Tree σ α) (s : κ) :
    (f.insert key t).lookup s = if s = fold key then some t else f.lookup s := by
  induction f with
  | nil => simp [insert, lookup, eq_comm]
  | cons key' val sub rest _ ih =>
    simp only [insert]
    split
    · rename_i h
      simp only [lookup, h]
      split_ifs with hs hs' hs' <;> first | rfl | exact absurd hs.symm hs' | exact absurd hs'.symm hs
    · rename_i h
      simp only [lookup, ih]
      split_ifs with hs hs' <;> first | rfl | exact absurd (hs.trans hs') h

@[simp] theorem lookup_insert_self (f : Forest σ α) (key : σ) (t : Tree σ α) :
    (f.insert key t).lookup (fold key) = some t := by
  simp [lookup_insert]

theorem lookup_erase (f : Forest σ α) (s t : κ) :
    (f.erase s).lookup t = if t = s then none else f.lookup t := by
  induction f with
  | nil => simp [erase]
  | cons key val sub rest _ ih =>
    simp only [erase]
    split
    · rename_i h
      rw [ih, lookup, h]
      split_ifs with ht ht' <;> first | rfl | exact absurd ht'.symm ht
    · rename_i h
      simp only [lookup, ih]
      split_ifs with ht ht' <;> first | rfl | exact absurd (ht.trans ht') h

variable {f : Forest σ α} {t : Tree σ α}

theorem mem_of_lookup {s : κ} (h : f.lookup s = some t) :
    ∃ key, fold key = s ∧ (key, t) ∈ f.toList := by
  induction f with
  | nil => cases h
  | cons key val sub rest _ ih =>
    simp only [lookup] at h
    split at h
    · rename_i hk
      cases h
      exact ⟨key, hk, by simp [toList]⟩
    · obtain ⟨key', hk, hmem⟩ := ih h
      exact ⟨key', hk, by simp [toList, hmem]⟩

variable {ok : σ → Prop}

theorem Proper.lookup_of_mem (hf : f.Proper ok) {key : σ} (h : (key, t) ∈ f.toList) :
    f.lookup (fold key) = some t := by
  induction f with
  | nil => cases h
  | cons key' val sub rest _ ih =>
    obtain ⟨-, hnew, -, hrest⟩ := hf
    rcases mem_cons.mp h with h | h
    · cases h
      simp [lookup]
    · have hl := ih hrest h
      have hne : ¬ fold key' = fold key := by
        intro e
        rw [e, hl] at hnew
        cases hnew
      simpa [lookup, hne] using hl

theorem Proper.ok_of_mem (hf : f.Proper ok) {key : σ} (h : (key, t) ∈ f.toList) :
    ok key ∧ t.kids.Proper ok := by
  induction f with
  | nil => cases h
  | cons key' val sub rest _ ih =>
    rcases mem_cons.mp h with h | h
    · cases h
      exact ⟨hf.1, hf.2.2.1⟩
    · exact ih hf.2.2.2 h

theorem Proper.imp {ok' : σ → Prop} (hf : f.Proper ok) (h : ∀ s, ok s → ok' s) : f.Proper ok' := by
  induction f with
  | nil => exact trivial
  | cons key val sub rest ihs ihr =>
    obtain ⟨hk, hnew, hsub, hrest⟩ := hf
    exact ⟨h key hk, hnew, ihs hsub, ihr hrest⟩

theorem Proper.of_lookup (hf : f.Proper ok) {s : κ} (h : f.lookup s = some t) :
    t.kids.Proper ok := by
  obtain ⟨_, -, hmem⟩ := mem_of_lookup h
  exact (hf.ok_of_mem hmem).2

theorem Proper.nodup_names (hf : f.Proper ok) : (f.toList.map fun b => fold b.1).Nodup := by
  induction f with
  | nil => simp [toList]
  | cons key val sub rest _ ih =>
    obtain ⟨-, hnew, -, hrest⟩ := hf
    simp only [toList, map_cons, nodup_cons]
    refine ⟨?_, ih hrest⟩
    intro hmem
    obtain ⟨b, hb, he⟩ := mem_map.mp hmem
    have := hrest.lookup_of_mem hb
    rw [he, hnew] at this
    cases this

theorem Proper.insert (hf : f.Proper ok) {key : σ} (hk : ok key) (ht : t.kids.Proper ok) :
    (f.insert key t).Proper ok := by
  induction f with
  | nil => exact ⟨hk, rfl, ht, trivial⟩
  | cons key' val sub rest _ ih =>
    obtain ⟨hk', hnew, hsub, hrest⟩ := hf
    simp only [Forest.insert]
    split
    · exact ⟨hk', hnew, ht, hrest⟩
    · rename_i h
      refine ⟨hk', ?_, hsub, ih hrest⟩
      rw [lookup_insert, if_neg h, hnew]

theorem Proper.erase (hf : f.Proper ok) (s : κ) : (f.erase s).Proper ok := by
  induction f with
  | nil => exact trivial
  | cons key val sub rest _ ih =>
    obtain ⟨hk, hnew, hsub, hrest⟩ := hf
    simp only [Forest.erase]
    split
    · exact ih hrest
    · rename_i h
      refine ⟨hk, ?_, hsub, ih hrest⟩
      rw [lookup_erase, hnew]
      split <;> rfl

end Forest

namespace Tree

variable {σ κ α : Type}

/-- The paths of all nodes, below the path `pre`, each after those below it. -/
def postorder (pre : List σ) (t : Tree σ α) : List (List σ) := t.kids.postorder pre ++ [pre]

def height (t : Tree σ α) : Nat := t.kids.height

variable [Folds σ κ] [DecidableEq κ]

def find (t : Tree σ α) : List κ → Option (Tree σ α)
  | [] => some t
  | s :: p => (t.kids.lookup s).bind fun c => c.find p

/-- A path with each name in the spelling of the node it leads to. -/
def spelled (t : Tree σ α) : List σ → List σ
  | [] => []
  | s :: k =>
    t.kids.spelling s ::
      match t.kids.lookup (fold s) with
      | none => k
      | some c => c.spelled k

def content (t : Tree σ α) : PathMap κ α := fun p => (t.find p).map Tree.val

def contents : Option (Tree σ α) → PathMap κ α
  | none => fun _ => none
  | some t => t.content

/-- Write `v` at a path; the nodes that are missing on the way get the value `d`. -/
def write (d : α) : Option (Tree σ α) → List σ → α → Tree σ α
  | none, [], v => ⟨v, .nil⟩
  | some t, [], v => ⟨v, t.kids⟩
  | none, s :: k, v => ⟨d, Forest.insert .nil s (write d none k v)⟩
  | some t, s :: k, v => ⟨t.val, t.kids.insert s (write d (t.kids.lookup (fold s)) k v)⟩

def remove (t : Tree σ α) : List σ → Option (Tree σ α)
  | [] => none
  | s :: k =>
    match t.kids.lookup (fold s) with
    | none => some t
    | some c =>
      match c.remove k with
      | none => some ⟨t.val, t.kids.erase (fold s)⟩
      | some c' => some ⟨t.val, t.kids.insert s c'⟩

theorem map_fold_spelled (t : Tree σ α) (k : List σ) : (t.spelled k).map fold = k.map fold := by
  induction k generalizing t with
  | nil => rfl
  | cons s k ih =>
    simp only [spelled, map_cons, Forest.fold_spelling]
    cases t.kids.lookup (fold s) with
    | none => rfl
    | some c => rw [ih c]

@[simp] theorem find_nil (t : Tree σ α) : t.find ([] : List κ) = some t := rfl

theorem find_cons (t : Tree σ α) (s : κ) (p : List κ) :
    t.find (s :: p) = (t.kids.lookup s).bind fun c => c.find p := rfl

theorem find_append (t : Tree σ α) (p q : List κ) :
    t.find (p ++ q) = (t.find p).bind fun c => c.find q := by
  induction p generalizing t with
  | nil => rfl
  | cons s p ih =>
    simp only [cons_append, find_cons]
    cases t.kids.lookup s with
    | none => rfl
    | some c => exact ih c

@[simp] theorem contents_none : contents (none : Option (Tree σ α)) = fun _ => none := rfl

@[simp] theorem contents_some (t : Tree σ α) : contents (some t) = t.content := rfl

@[simp] theorem content_nil (t : Tree σ α) : t.content [] = some t.val := rfl

theorem content_cons (t : Tree σ α) (s : κ) (p : List κ) :
    t.content (s :: p) = contents (t.kids.lookup s) p := by
  simp only [content, find_cons]
  cases t.kids.lookup s <;> rfl

theorem content_below (t : Tree σ α) (s : κ) : t.content.below s = contents (t.kids.lookup s) := by
  funext p
  exact content_cons t s p

theorem content_eq_none_iff (t : Tree σ α) (p : List κ) : t.content p = none ↔ t.find p = none := by
  simp [content]

variable {t : Tree σ α}

theorem content_under {c : Tree σ α} {p : List κ} (h : t.find p = some c) :
    t.content.under p = c.content := by
  funext q
  simp [content, find_append, h]

theorem content_closed (t : Tree σ α) : t.content.Closed := by
  intro p q h
  rw [content_eq_none_iff] at h ⊢
  simp [find_append, h]

theorem contents_closed (t : Option (Tree σ α)) : (contents t).Closed := by
  cases t with
  | none => exact fun _ _ _ => rfl
  | some t => exact t.content_closed

theorem content_ext {m : PathMap κ α} (hval : some t.val = m [])
    (hkids : ∀ s, contents (t.kids.lookup s) = m.below s) : t.content = m := by
  funext p
  cases p with
  | nil => exact hval
  | cons s p => rw [content_cons, hkids]; rfl

theorem content_write (d : α) (t : Option (Tree σ α)) (k : List σ) (v : α) :
    (write d t k v).content = assign d (contents t) (k.map fold) (some v) := by
  induction k generalizing t with
  | nil =>
    cases t with
    | none =>
      refine eq_assign_nil rfl ?_
      exact fun s => content_below _ s
    | some t =>
      refine eq_assign_nil rfl ?_
      intro s
      rw [contents_some, content_below, content_below]
      rfl
  | cons s k ih =>
    have hother : ∀ (f : Forest σ α) (w : α) (s' : κ), s' ≠ fold s →
        (content ⟨w, f.insert s (write d (f.lookup (fold s)) k v)⟩).below s' =
          contents (f.lookup s') := by
      intro f w s' h
      rw [content_below, Forest.lookup_insert, if_neg h]
    have hself : ∀ (f : Forest σ α) (w : α),
        (content ⟨w, f.insert s (write d (f.lookup (fold s)) k v)⟩).below (fold s) =
          assign d (contents (f.lookup (fold s))) (k.map fold) (some v) := by
      intro f w
      rw [content_below, Forest.lookup_insert_self, contents_some, ih]
    cases t with
    | none => exact eq_assign_cons rfl (hself .nil d) (hother .nil d)
    | some t =>
      apply eq_assign_cons rfl
      · have h := hself t.kids t.val
        rwa [← t.content_below] at h
      · intro s' h
        have h' := hother t.kids t.val s' h
        rwa [← t.content_below] at h'

theorem contents_remove (t : Tree σ α) (k : List σ) :
    contents (t.remove k) = t.content.prune (k.map fold) := by
  induction k generalizing t with
  | nil => exact (prune_nil _).symm
  | cons s k ih =>
    have hc : ∀ c, t.kids.lookup (fold s) = some c →
        contents (c.remove k) = (t.content.prune ((s :: k).map fold)).below (fold s) := by
      intro c hc
      rw [ih, map_cons, prune_cons_below, content_below, hc]
      rfl
    have hother : ∀ s', s' ≠ fold s →
        contents (t.kids.lookup s') = (t.content.prune ((s :: k).map fold)).below s' := by
      intro s' h
      rw [map_cons, prune_cons_below_ne _ _ h, content_below]
    have hroot : some t.val = t.content.prune ((s :: k).map fold) [] := by
      rw [map_cons, prune_cons_nil]
      rfl
    simp only [remove]
    split
    · rename_i hl
      symm
      apply t.content_closed.prune_of_none
      rw [map_cons, content_cons, hl]
      rfl
    · rename_i c hl
      split
      · rename_i hr
        refine content_ext hroot fun s' => ?_
        by_cases h : s' = fold s
        · subst h
          rw [← hc c hl, hr, Forest.lookup_erase, if_pos rfl]
        · rw [Forest.lookup_erase, if_neg h, hother s' h]
      · rename_i c' hr
        refine content_ext hroot fun s' => ?_
        by_cases h : s' = fold s
        · subst h
          rw [← hc c hl, hr, Forest.lookup_insert_self]
        · rw [Forest.lookup_insert, if_neg h, hother s' h]

variable {ok : σ → Prop}

theorem proper_write (d : α) {t : Option (Tree σ α)} (ht : ∀ t' ∈ t, t'.kids.Proper ok)
    {k : List σ} (hk : ∀ s ∈ k, ok s) (v : α) : (write d t k v).kids.Proper ok := by
  induction k generalizing t with
  | nil =>
    cases t with
    | none => exact trivial
    | some t => exact ht t rfl
  | cons s k ih =>
    have hs := hk s mem_cons_self
    have hk' : ∀ s' ∈ k, ok s' := fun s' h => hk s' (mem_cons_of_mem _ h)
    cases t with
    | none =>
      exact Forest.Proper.insert (f := .nil) trivial hs (ih nofun hk')
    | some t =>
      exact (ht t rfl).insert hs (ih (fun _ h => (ht t rfl).of_lookup h) hk')

theorem proper_remove (ht : t.kids.Proper ok) {k : List σ} (hk : ∀ s ∈ k, ok s) :
    ∀ t' ∈ t.remove k, t'.kids.Proper ok := by
  induction k generalizing t with
  | nil => exact nofun
  | cons s k ih =>
    intro t' h
    simp only [remove] at h
    split at h
    · cases h
      exact ht
    · rename_i c hl
      split at h
      · cases h
        exact ht.erase _
      · rename_i c' hr
        cases h
        exact ht.insert (hk s mem_cons_self)
          (ih (ht.of_lookup hl) (fun s' h => hk s' (mem_cons_of_mem _ h)) c' hr)

theorem proper_find {c : Tree σ α} (ht : t.kids.Proper ok) {p : List κ} (h : t.find p = some c) :
    c.kids.Proper ok := by
  induction p generalizing t with
  | nil => cases h; exact ht
  | cons s p ih =>
    rw [find_cons] at h
    cases hl : t.kids.lookup s with
    | none => rw [hl] at h; cases h
    | some t' => rw [hl] at h; exact ih (ht.of_lookup hl) h

end Tree

open Forest

theorem Forest.height_lookup {σ κ α : Type} [Folds σ κ] [DecidableEq κ] {f : Forest σ α} {s : κ}
    {t : Tree σ α} (h : f.lookup s = some t) : t.height + 1 ≤ f.height := by
  induction f with
  | nil => cases h
  | cons key val sub rest _ ih =>
    simp only [lookup] at h
    simp only [height]
    split at h
    · cases h
      exact Nat.le_max_left _ _
    · exact (ih h).trans (Nat.le_max_right _ _)

theorem Tree.length_le_height {σ κ α : Type} [Folds σ κ] [DecidableEq κ] {t : Tree σ α}
    {p : List κ} (h : t.content p ≠ none) : p.length ≤ t.height := by
  induction p generalizing t with
  | nil => exact Nat.zero_le _
  | cons s p ih =>
    rw [Tree.content_cons] at h
    cases hl : t.kids.lookup s with
    | none =>
      rw [hl] at h
      exact absurd rfl h
    | some c =>
      rw [hl] at h
      have hc := ih h
      have hstep := Forest.height_lookup hl
      have hheight : t.height = t.kids.height := rfl
      simp only [length_cons]
      omega

namespace Tree

variable {σ κ α : Type} [Folds σ κ] [DecidableEq κ]

/-- Every node that a path leads to satisfies `P`. -/
structure Everywhere (P : List κ → Tree σ α → Prop) (t : Option (Tree σ α)) : Prop where
  of_find : ∀ p n, (t.bind fun t => t.find p) = some n → P p n

@[simp] theorem everywhere_none (P : List κ → Tree σ α → Prop) : Everywhere P none :=
  ⟨nofun⟩

variable {P : List κ → Tree σ α → Prop}

theorem everywhere_some {t : Tree σ α} :
    Everywhere P (some t) ↔ P [] t ∧ ∀ s, Everywhere (fun p => P (s :: p)) (t.kids.lookup s) := by
  constructor
  · rintro ⟨h⟩
    exact ⟨h [] t rfl, fun s => ⟨fun p n hn => h (s :: p) n hn⟩⟩
  · rintro ⟨hroot, hkids⟩
    constructor
    intro p n hn
    cases p with
    | nil =>
      have he : t = n := by simpa using hn
      exact he ▸ hroot
    | cons s p => exact (hkids s).of_find p n hn

theorem Everywhere.imp {Q : List κ → Tree σ α → Prop} {t : Option (Tree σ α)} (h : Everywhere P t)
    (hPQ : ∀ p n, P p n → Q p n) : Everywhere Q t :=
  ⟨fun p n hn => hPQ p n (h.of_find p n hn)⟩

theorem everywhere_insert {f : Forest σ α} {key : σ} {c : Tree σ α}
    (hf : ∀ s, s ≠ fold key → Everywhere (fun p => P (s :: p)) (f.lookup s))
    (hc : Everywhere (fun p => P (fold key :: p)) (some c)) (s : κ) :
    Everywhere (fun p => P (s :: p)) ((f.insert key c).lookup s) := by
  rw [Forest.lookup_insert]
  split
  · rename_i h
    rw [h]
    exact hc
  · rename_i h
    exact hf s h

end Tree

namespace Forest

variable {σ κ α : Type} [Folds σ κ] [DecidableEq κ] {ok : σ → Prop}

theorem mem_postorder {f : Forest σ α} (hf : f.Proper ok) (pre : List σ) (p : List κ) :
    p ∈ (f.postorder pre).map (map fold) ↔
      ∃ s q, p = pre.map fold ++ s :: q ∧ Tree.contents (f.lookup s) q ≠ none := by
  induction f generalizing pre with
  | nil => simp [postorder]
  | cons key val sub rest ihs ihr =>
    obtain ⟨-, hnew, hsub, hrest⟩ := hf
    simp only [postorder, map_append, map_cons, mem_append, mem_cons, ihs hsub, ihr hrest]
    constructor
    · rintro (⟨s, q, rfl, h⟩ | rfl | ⟨s, q, rfl, h⟩)
      · exact ⟨fold key, s :: q, by simp, by simpa [lookup, Tree.content_cons] using h⟩
      · exact ⟨fold key, [], by simp, by simp [lookup]⟩
      · refine ⟨s, q, rfl, ?_⟩
        have hne : ¬ fold key = s := by
          rintro rfl
          rw [hnew] at h
          exact h rfl
        simpa [lookup, hne] using h
    · rintro ⟨s, q, rfl, h⟩
      by_cases hs : fold key = s
      · subst hs
        cases q with
        | nil => exact Or.inr (Or.inl (by simp))
        | cons s' q =>
          exact Or.inl ⟨s', q, by simp, by simpa [lookup, Tree.content_cons] using h⟩
      · exact Or.inr (Or.inr ⟨s, q, rfl, by simpa [lookup, hs] using h⟩)

/-- Every listed path is the starting path with admissible names added. -/
theorem of_mem_postorder {f : Forest σ α} (hf : f.Proper ok) {pre k : List σ}
    (hk : k ∈ f.postorder pre) : ∃ q, k = pre ++ q ∧ ∀ s ∈ q, ok s := by
  induction f generalizing pre with
  | nil => cases hk
  | cons key val sub rest ihs ihr =>
    obtain ⟨hok, -, hsub, hrest⟩ := hf
    simp only [postorder, mem_append, mem_cons] at hk
    rcases hk with h | h | h
    · obtain ⟨q, hq, hall⟩ := ihs hsub h
      refine ⟨key :: q, by simp [hq], ?_⟩
      exact forall_mem_cons.mpr ⟨hok, hall⟩
    · exact ⟨[key], h, by simpa using hok⟩
    · exact ihr hrest h

theorem pairwise_postorder {f : Forest σ α} (hf : f.Proper ok) (pre : List σ) :
    ((f.postorder pre).map (map fold)).Pairwise (fun a b => ¬ a <+: b) := by
  induction f generalizing pre with
  | nil => exact Pairwise.nil
  | cons key val sub rest ihs ihr =>
    obtain ⟨-, hnew, hsub, hrest⟩ := hf
    simp only [postorder, map_append, map_cons, pairwise_append, pairwise_cons]
    refine ⟨ihs hsub _, ⟨?_, ihr hrest _⟩, ?_⟩
    · intro b hb hpre
      obtain ⟨s, q, rfl, h⟩ := (mem_postorder hrest pre b).mp hb
      have hs : fold key = s := by simpa using hpre
      rw [← hs, hnew] at h
      exact h rfl
    · intro a ha b hb hpre
      obtain ⟨s, q, rfl, -⟩ := (mem_postorder hsub _ a).mp ha
      rcases mem_cons.mp hb with rfl | hb
      · simpa using hpre.length_le
      · obtain ⟨s', q', rfl, h⟩ := (mem_postorder hrest pre b).mp hb
        have hs : fold key = s' := by
          have h' : fold key :: s :: q <+: s' :: q' := by simpa using hpre
          exact (cons_prefix_cons.mp h').1
        rw [← hs, hnew] at h
        exact h rfl

end Forest

namespace Tree

variable {σ κ α : Type} [Folds σ κ] [DecidableEq κ] {ok : σ → Prop}

theorem mem_postorder {t : Tree σ α} (ht : t.kids.Proper ok) (pre : List σ) (p : List κ) :
    p ∈ (t.postorder pre).map (map fold) ↔ ∃ q, p = pre.map fold ++ q ∧ t.content q ≠ none := by
  simp only [postorder, map_append, mem_append, Forest.mem_postorder ht,
    map_cons, map_nil, mem_singleton]
  constructor
  · rintro (⟨s, q, rfl, h⟩ | rfl)
    · exact ⟨s :: q, rfl, by rwa [content_cons]⟩
    · exact ⟨[], by simp, by simp⟩
  · rintro ⟨q, rfl, h⟩
    cases q with
    | nil => exact Or.inr (by simp)
    | cons s q => exact Or.inl ⟨s, q, rfl, by rwa [← content_cons]⟩

theorem of_mem_postorder {t : Tree σ α} (ht : t.kids.Proper ok) {pre k : List σ}
    (hk : k ∈ t.postorder pre) : ∃ q, k = pre ++ q ∧ ∀ s ∈ q, ok s := by
  rcases mem_append.mp hk with h | h
  · exact Forest.of_mem_postorder ht h
  · exact ⟨[], by simpa using h, by simp⟩

theorem pairwise_postorder {t : Tree σ α} (ht : t.kids.Proper ok) (pre : List σ) :
    ((t.postorder pre).map (map fold)).Pairwise (fun a b => ¬ a <+: b) := by
  simp only [postorder, map_append, pairwise_append, map_cons, map_nil,
    pairwise_singleton, true_and]
  refine ⟨Forest.pairwise_postorder ht pre, ?_⟩
  intro a ha b hb hpre
  obtain rfl := mem_singleton.mp hb
  obtain ⟨s, q, rfl, -⟩ := (Forest.mem_postorder ht pre a).mp ha
  have := hpre.length_le
  simp only [length_append, length_cons, length_map] at this
  omega

end Tree

end WvStreams.Lib
