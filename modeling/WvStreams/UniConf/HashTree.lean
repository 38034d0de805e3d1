import WvStreams.UniConf.Key

/-!
# The trees of the generators

`UniConfTree` keeps the children of a node in a hash table keyed by name. The model keeps
them in a list in which sibling names differ up to case (`Forest.Proper`). An empty key
means the node itself, in `findchild` as in `find`.
-/

namespace WvStreams

open Lib List

/-- A node of a `UniConfTree` with its own fields in `val`. -/
abbrev UniConfTree (α : Type) := Tree Segment α

/-- The node's `xvalue` is its `val`. -/
abbrev UniConfValueTree := UniConfTree Str

/-- A change of a key, announced with `UniConfGen::delta`. -/
structure Delta where
  key : UniConfKey
  value : WvString
  deriving DecidableEq, Repr

/-- The place in the tree that a change speaks of. A key that is reported with a trailing
slash is the key itself. -/
def Delta.note (d : Delta) : Note Segment Str := (d.key.path, d.value)

namespace UniConfTree

variable {α : Type}

def findchild (t : UniConfTree α) (key : Segment) : Option (UniConfTree α) :=
  if key = [] then some t else t.kids.lookup (fold key)

def find (t : UniConfTree α) : UniConfKey → Option (UniConfTree α)
  | [] => some t
  | s :: key => (findchild t s).bind fun c => find c key

def fullkey (t : UniConfTree α) (key : UniConfKey) : UniConfKey :=
  Tree.spelled t (key.filter (· ≠ []))

/-- The names below a node differ up to case, and none is empty. -/
def Proper (t : UniConfTree α) : Prop := t.kids.Proper (· ≠ [])

theorem Proper.plain_of_mem_postorder {t : UniConfTree α} (ht : Proper t) {pre k : UniConfKey}
    (hpre : pre.Plain) (hk : k ∈ t.postorder pre) : k.Plain := by
  obtain ⟨q, rfl, hq⟩ := Tree.of_mem_postorder ht hk
  exact hpre.append fun h => hq [] h rfl

theorem findchild_of_ne {key : Segment} (h : key ≠ []) (t : UniConfTree α) :
    findchild t key = t.kids.lookup (fold key) := by
  simp [findchild, h]

theorem fullkey_plain (t : UniConfTree α) (key : UniConfKey) : (fullkey t key).Plain := by
  intro h
  have hfold : fold ([] : Segment) ∈ (fullkey t key).map fold := mem_map_of_mem h
  rw [fullkey, Tree.map_fold_spelled] at hfold
  obtain ⟨s, hs, he⟩ := mem_map.mp hfold
  have hne : s ≠ [] := by simpa using (mem_filter.mp hs).2
  exact hne (UniConfKey.fold_eq_nil.mp he)

theorem map_fold_fullkey (t : UniConfTree α) (key : UniConfKey) :
    (fullkey t key).map fold = key.path :=
  t.map_fold_spelled _

theorem find_eq (t : UniConfTree α) (key : UniConfKey) : find t key = Tree.find t key.path := by
  induction key generalizing t with
  | nil => rfl
  | cons s key ih =>
    by_cases h : s = []
    · rw [h, UniConfKey.path_cons_empty]
      exact ih t
    · rw [UniConfKey.path_cons_of_ne h, Tree.find_cons, find, findchild_of_ne h]
      congr 1
      ext1 c
      exact ih c

/-- The pairs of an iterator: the names differ up to case, and the values are those of `m`. -/
structure Lists (l : List (Segment × Str)) (m : Segment → WvString) : Prop where
  distinct : l.Pairwise fun a b => fold a.1 ≠ fold b.1
  mem : ∀ s v, (∃ name, fold name = s ∧ (name, v) ∈ l) ↔ m s = some v

def foldName (c : Segment × Str) : Segment × Str := (fold c.1, c.2)

theorem lists_nil : Lists [] fun _ => none := by
  refine ⟨Pairwise.nil, ?_⟩
  intro s v
  simp

theorem Lists.perm {l l' : List (Segment × Str)} {m : Segment → WvString} (h : Lists l m)
    (h' : Lists l' m) : (l.map foldName).Perm (l'.map foldName) := by
  have hnodup : ∀ {l : List (Segment × Str)}, Lists l m → (l.map foldName).Nodup := by
    intro l h
    apply pairwise_map.mpr
    apply h.distinct.imp
    intro a b hne he
    exact hne (congrArg Prod.fst he)
  have hmem : ∀ {l : List (Segment × Str)}, Lists l m → ∀ s v,
      (s, v) ∈ l.map foldName ↔ m s = some v := by
    intro l h s v
    rw [← h.mem s v, mem_map]
    constructor
    · rintro ⟨c, hc, he⟩
      obtain ⟨name, v'⟩ := c
      obtain ⟨rfl, rfl⟩ := Prod.mk.inj he
      exact ⟨name, rfl, hc⟩
    · rintro ⟨name, rfl, hc⟩
      exact ⟨(name, v), hc, rfl⟩
  apply (perm_ext_iff_of_nodup (hnodup h) (hnodup h')).mpr
  rintro ⟨s, v⟩
  rw [hmem h, hmem h']

theorem Proper.lists {t : UniConfTree Str} (ht : Proper t) :
    Lists (t.kids.toList.map fun c => (c.1, c.2.val)) fun s => t.content [s] := by
  constructor
  · apply pairwise_map.mpr
    exact pairwise_map.mp (Forest.Proper.nodup_names ht)
  · intro s v
    have hcontent : t.content [s] = (t.kids.lookup s).map Tree.val := by
      rw [Tree.content_cons]
      cases t.kids.lookup s <;> rfl
    rw [hcontent, Option.map_eq_some_iff]
    constructor
    · rintro ⟨name, rfl, hm⟩
      obtain ⟨⟨name', c⟩, hc, he⟩ := mem_map.mp hm
      obtain ⟨rfl, rfl⟩ := Prod.mk.inj he
      exact ⟨c, Forest.Proper.lookup_of_mem ht hc, rfl⟩
    · rintro ⟨c, hc, rfl⟩
      obtain ⟨name, hname, hm⟩ := Forest.mem_of_lookup hc
      exact ⟨name, hname, mem_map.mpr ⟨(name, c), hm, rfl⟩⟩

end UniConfTree

end WvStreams
