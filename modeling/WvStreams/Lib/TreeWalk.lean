import Mathlib.Data.List.Infix
import Mathlib.Data.List.Perm.Basic
import Mathlib.Tactic.Common

/-!
# Walking a tree

A folder is what a node holds: leaves, and nodes with a folder of their own. A walk visits
the entries in the order of `preorder`, each node before what is inside it, and the rest of the
node that it is in can be abandoned. `Walk.Accounts` says what becomes of each entry.
-/

namespace WvStreams.Lib

open List

variable {σ : Type}

inductive Folder (σ : Type) where
  | nil
  | leaf (name : σ) (rest : Folder σ)
  | node (name : σ) (contents rest : Folder σ)

/-- An entry by its path. -/
structure Visit (σ : Type) where
  path : List σ
  isNode : Bool
  deriving DecidableEq

def Visit.inside (v : Visit σ) : List σ := if v.isNode then v.path else v.path.dropLast

namespace Folder

def names : Folder σ → List σ
  | nil => []
  | leaf name rest | node name _ rest => name :: rest.names

/-- All entries below the path `pre`, each node before what is inside it. -/
def preorder (pre : List σ) : Folder σ → List (Visit σ)
  | nil => []
  | leaf name rest => ⟨pre ++ [name], false⟩ :: rest.preorder pre
  | node name contents rest =>
    ⟨pre ++ [name], true⟩ :: (contents.preorder (pre ++ [name]) ++ rest.preorder pre)

/-- No two entries of one directory have the same name. -/
def Distinct : Folder σ → Prop
  | nil => True
  | leaf name rest => name ∉ rest.names ∧ rest.Distinct
  | node name contents rest => name ∉ rest.names ∧ contents.Distinct ∧ rest.Distinct

theorem mem_preorder {l : Folder σ} {pre : List σ} {v : Visit σ} (hv : v ∈ l.preorder pre) :
    ∃ name ∈ l.names, pre ++ [name] <+: v.path := by
  induction l generalizing pre with
  | nil => cases hv
  | leaf name rest ih =>
    rcases mem_cons.mp hv with rfl | hv
    · exact ⟨name, mem_cons_self, prefix_rfl⟩
    · obtain ⟨other, hmem, hother⟩ := ih hv
      exact ⟨other, mem_cons_of_mem _ hmem, hother⟩
  | node name contents rest ihc ihr =>
    rcases mem_cons.mp hv with rfl | hv
    · exact ⟨name, mem_cons_self, prefix_rfl⟩
    · rcases mem_append.mp hv with hv | hv
      · obtain ⟨other, -, hother⟩ := ihc hv
        exact ⟨name, mem_cons_self, (prefix_append _ _).trans hother⟩
      · obtain ⟨other, hmem, hother⟩ := ihr hv
        exact ⟨other, mem_cons_of_mem _ hmem, hother⟩

/-- Two paths that go on with one name each from the same place and are below one another go on
with the same name. -/
theorem name_eq_of_prefix {pre p : List σ} {a b : σ} (ha : pre ++ [a] <+: p)
    (hb : pre ++ [b] <+: p) : a = b := by
  have h := prefix_of_prefix_length_le ha hb (by simp)
  rw [prefix_append_right_inj] at h
  exact (cons_prefix_cons.mp h).1

theorem preorder_pairwise {l : Folder σ} (hl : l.Distinct) (pre : List σ) :
    (l.preorder pre).Pairwise fun a b => ¬ b.path <+: a.path := by
  induction l generalizing pre with
  | nil => exact Pairwise.nil
  | leaf name rest ih =>
    obtain ⟨hname, hrest⟩ := hl
    refine Pairwise.cons ?_ (ih hrest pre)
    intro b hb hprefix
    obtain ⟨other, hmem, hother⟩ := mem_preorder hb
    obtain rfl := name_eq_of_prefix (hother.trans hprefix) prefix_rfl
    exact hname hmem
  | node name contents rest ihc ihr =>
    obtain ⟨hname, hcontents, hrest⟩ := hl
    -- the entries behind the node are inside it or begin with another name
    have hapart : ∀ b ∈ rest.preorder pre, ∀ p, pre ++ [name] <+: p → ¬ b.path <+: p := by
      intro b hb p hp hprefix
      obtain ⟨other, hmem, hother⟩ := mem_preorder hb
      obtain rfl := name_eq_of_prefix (hother.trans hprefix) hp
      exact hname hmem
    refine Pairwise.cons ?_ (pairwise_append.mpr ⟨ihc hcontents _, ihr hrest pre, ?_⟩)
    · intro b hb
      rcases mem_append.mp hb with hb | hb
      · intro hprefix
        obtain ⟨other, -, hother⟩ := mem_preorder hb
        have hlen := (hother.trans hprefix).length_le
        simp at hlen
      · exact hapart b hb _ prefix_rfl
    · intro a ha b hb
      obtain ⟨other, -, hother⟩ := mem_preorder ha
      exact hapart b hb _ ((prefix_append _ _).trans hother)

end Folder

/-- A walk: what is still to be visited, the node that it is inside of, what was visited and what
was left out. -/
structure Walk (σ : Type) where
  todo : List (Visit σ)
  inside : List σ
  seen : List (Visit σ)
  abandoned : List (Visit σ)

namespace Walk

/-- The entry is inside the node with this path. -/
def Below (p : List σ) (v : Visit σ) : Prop := p <+: v.path ∧ p.length < v.path.length

instance [DecidableEq σ] (p : List σ) (v : Visit σ) : Decidable (Below p v) :=
  inferInstanceAs (Decidable (_ ∧ _))

def start (l : Folder σ) : Walk σ := ⟨l.preorder [], [], [], []⟩

def next (w : Walk σ) : Walk σ × Option (Visit σ) :=
  match w.todo with
  | [] => ({ w with inside := [] }, none)
  | v :: todo =>
    ({ w with
        todo := todo
        inside := v.inside
        seen := w.seen ++ [v] }, some v)

variable {w : Walk σ}

theorem next_nil (h : w.todo = []) : w.next = ({ w with inside := [] }, none) := by
  simp only [next, h]

theorem next_cons {v : Visit σ} {todo : List (Visit σ)} (h : w.todo = v :: todo) :
    w.next =
      ({ w with todo := todo, inside := v.inside, seen := w.seen ++ [v] }, some v) := by
  simp only [next, h]

/-- The rest of what is inside the node is abandoned. -/
def up [DecidableEq σ] (w : Walk σ) : Walk σ :=
  { w with
    todo := w.todo.filter fun v => ¬ Below w.inside v
    abandoned := w.abandoned ++ w.todo.filter fun v => Below w.inside v }

/-- Every entry of the tree was visited, was abandoned or is to be visited, and the visits follow
the order of the tree. -/
structure Accounts (l : Folder σ) (w : Walk σ) : Prop where
  all : (w.seen ++ w.abandoned ++ w.todo).Perm (l.preorder [])
  order : (w.seen ++ w.todo).Sublist (l.preorder [])

theorem accounts_start (l : Folder σ) : Accounts l (start l) :=
  ⟨Perm.refl _, Sublist.refl _⟩

theorem Accounts.next {l : Folder σ} (h : Accounts l w) : Accounts l w.next.1 := by
  unfold Walk.next
  split
  · exact ⟨h.all, h.order⟩
  · next v todo htodo =>
    constructor
    · have hmove : (w.seen ++ [v] ++ w.abandoned ++ todo).Perm
          (w.seen ++ w.abandoned ++ w.todo) := by
        rw [htodo]
        simp only [append_assoc, singleton_append]
        exact Perm.append_left _ perm_middle.symm
      exact hmove.trans h.all
    · have horder := h.order
      rw [htodo] at horder
      simpa using horder

theorem Accounts.up [DecidableEq σ] {l : Folder σ} (h : Accounts l w) : Accounts l w.up := by
  constructor
  · refine Perm.trans ?_ h.all
    simp only [Walk.up, append_assoc]
    apply Perm.append_left
    apply Perm.append_left
    simpa using filter_append_perm (fun v => decide (Below w.inside v)) w.todo
  · exact (Sublist.append_left filter_sublist _).trans h.order

/-- What was visited: each entry once, and behind the nodes that it is inside of. -/
theorem Accounts.seen_pairwise {l : Folder σ} (h : Accounts l w) (hl : l.Distinct) :
    w.seen.Pairwise fun a b => ¬ b.path <+: a.path :=
  (l.preorder_pairwise hl []).sublist ((sublist_append_left _ _).trans h.order)

end Walk

end WvStreams.Lib
