import WvStreams.UniConf.Transaction.Refresh

/-!
# Keys with a trailing slash

`UniTempGen` ignores a value set at `k/`, removes `k` when `k/` is set to null, and finds
nothing at `k/`. `UniTransactionGen` has a guard for the first in `create_change` only, and
`findchild` of the empty last segment is the node itself, so a change of `k` is found at `k/`
as well. `SlashOk` is the condition on a set and the state before it under which the two
generators still agree afterwards; `slash_agree_iff` is about sequences of sets.
-/

namespace WvStreams

open Lib UniConfKey UniTempGen PathMap UniConfTree List Option Lib.Tree Forest

namespace UniTransactionGen

/-! ## The condition -/

/-- The walk of `set_change` along the key ends at a node, or at a `NEWTREE` on the way. -/
def Covered (node : Option UniConfChangeTree) : List Segment → Prop
  | [] => node ≠ none
  | s :: p =>
    match node with
    | none => False
    | some node => ¬ node.val.Through ∨ Covered (node.kids.lookup s) p

/-- A value set at a key with a trailing slash finds no node below the root, and a `BLANK`
root that it makes a `NEWNODE` is in the base. -/
def Ignored (g : UniTransactionGen) (key : UniConfKey) : Prop :=
  ∀ root, g.root = some root → root.val.Through ∧ root.kids.lookup (fold (key.headD [])) = none ∧
      (root.val = .blank → g.base.exists_ [] = true)

/-- The condition on a set: a value only at the root, or at a key with a trailing slash where
it is ignored; a removal at a key with a trailing slash only if the key has a node, or no
value in the base. -/
def SlashOk (g : UniTransactionGen) (key : UniConfKey) (value : WvString) : Prop :=
  match value with
  | some _ => if key.hastrailingslash then Ignored g key else key = []
  | none =>
    key.hastrailingslash →
      Covered g.root (UniConfKey.path key.dropLast) ∨ g.base.exists_ key.dropLast = false

/-! ## Generators that agree -/

/-- Below the root there are only deletions, and a replacement of the root has no children. -/
def Bare (root : Option UniConfChangeTree) : Prop :=
  ∀ node, root = some node → ∀ s, s ≠ [] →
    (∀ newtree, node.val = .newTree newtree → contents newtree [s] = none) ∧
      (node.val.Through → QuietTree (node.kids.lookup s))

variable {g : UniTransactionGen} {k key : UniConfKey} {ref : UniTempGen} {p : List Segment}
  {node : UniConfChangeTree}

theorem not_provides_of_quiet {node : Option UniConfChangeTree} (hnode : QuietTree node)
    (p : List Segment) : ¬ Provides node p := by
  have hreplaced : ∀ {newtree kids p}, QuietTree (some ⟨.newTree newtree, kids⟩) →
      ¬ Provides (some ⟨.newTree newtree, kids⟩) p := by
    intro newtree kids p hnode
    rcases (everywhere_some.mp hnode).1 with hmode | hmode
    · cases hmode
    · obtain rfl := Change.newTree.inj hmode
      cases p <;> exact fun h => h rfl
  induction p generalizing node with
  | nil =>
    rcases node_cases node with rfl | ⟨newtree, kids, rfl⟩ | ⟨n, rfl, hn⟩
    · exact id
    · exact hreplaced hnode
    · rw [provides_nil hn, not_not]
      exact (everywhere_some.mp hnode).1.resolve_right fun hmode => by
        have hmode' : n.val = .newTree none := hmode
        rw [hmode'] at hn
        exact hn
  | cons s p ih =>
    rcases node_cases node with rfl | ⟨newtree, kids, rfl⟩ | ⟨n, rfl, hn⟩
    · exact id
    · exact hreplaced hnode
    · rw [provides_cons hn]
      exact ih ((everywhere_some.mp hnode).2 s)

theorem Bare.get_slash (h : Bare g.root) (hkey : key.Plain) (hne : key ≠ []) :
    g.get (key ++ [[]]) = none := by
  unfold get
  cases hroot : g.root with
  | none =>
    rw [getLoop_none]
    exact base_get_slash g.base key
  | some node =>
    obtain ⟨s, rest, rfl⟩ := exists_cons_of_ne_nil hne
    obtain ⟨hs, hrest⟩ := plain_cons.mp hkey
    have hs' : fold s ≠ ([] : Segment) := by simpa using hs
    obtain ⟨htree, hquiet⟩ := h node hroot (fold s) hs'
    rcases node_cases (some node) with h | ⟨newtree, kids, h⟩ | ⟨n, h, hn⟩
    · cases h
    · obtain rfl := some.inj h
      have hnone := contents_closed newtree [fold s] (path rest) (htree newtree rfl)
      rw [getLoop_newTree, path_slash, path_cons_of_ne hs]
      exact hnone
    · obtain rfl := some.inj h
      rw [cons_append, getLoop_through g.base [] hn, findchild_of_ne hs]
      exact (getLoop_slash g.base ([] ++ [s]) _ hrest).mpr
        (not_provides_of_quiet (hquiet hn) (path rest))

/-- The transaction and the generator `ref` hold the same at every plain key, and the
transaction nothing at other keys. -/
structure Agrees (g : UniTransactionGen) (ref : UniTempGen) : Prop where
  bare : Bare g.root
  view : ∀ p, [] ∉ p → g.view p = ref.content p

theorem Agrees.get (h : Agrees g ref) (key : ValidKey) : g.get key = ref.get key := by
  obtain ⟨key, hkey⟩ := key
  rcases hkey.cases with hplain | ⟨k, hne, hplain, rfl⟩
  · rw [get_eq g hplain, get_of_plain ref hplain]
    exact h.view _ hplain.not_mem_path
  · rw [base_get_slash, h.bare.get_slash hplain hne]

/-! ## Removals at a key with a trailing slash -/

open UniTransactionGen

theorem visible_createNodes_slash (base : UniTempGen) (pre : UniConfKey) (hk : k.Plain)
    (hp : [] ∉ p) (b : WvString) :
    visible (some (createNodes base none pre (k ++ [[]])).1) p b = b := by
  induction k generalizing pre p with
  | nil =>
    cases p with
    | nil => rfl
    | cons t p =>
      have ht : t ≠ fold ([] : Segment) := by
        rintro rfl
        exact hp mem_cons_self
      show visible ((insert .nil ([] : Segment) _).lookup t) p b = b
      rw [lookup_insert, if_neg ht]
      exact visible_none p b
  | cons s k ih =>
    obtain ⟨hs, hk⟩ := plain_cons.mp hk
    cases p with
    | nil => rfl
    | cons t p =>
      have hp' : [] ∉ p := fun h => hp (mem_cons_of_mem _ h)
      show visible ((insert .nil s _).lookup t) p b = b
      rw [lookup_insert]
      split
      · exact ih (pre ++ [s]) hk hp'
      · exact visible_none p b

theorem visible_remove_slash (g : UniTransactionGen) (pre : UniConfKey)
    (node : Option UniConfChangeTree) (hk : k.Plain) (hp : [] ∉ p) (b : WvString) :
    (Covered node k.path ∧ k.path <+: p →
      visible (setChange g none pre node (k ++ [[]])).1 p b = none) ∧
    (¬ (Covered node k.path ∧ k.path <+: p) →
      visible (setChange g none pre node (k ++ [[]])).1 p b = visible node p b) := by
  have htree : ∀ (newtree : Option UniConfValueTree) (kids : Forest Segment Change)
      (pre k : UniConfKey) (p : List Segment) (b : WvString),
      visible (setChange g none pre (some ⟨.newTree newtree, kids⟩) (k ++ [[]])).1 p b =
        (contents newtree).prune k.path p := by
    intro newtree kids pre k p b
    rw [setChange_newTree, visible_newTree, contents_setValue_none, path_slash]
  induction k generalizing pre node p with
  | nil =>
    rw [path_nil]
    rcases node_cases node with rfl | ⟨newtree, kids, rfl⟩ | ⟨n, rfl, hn⟩
    · refine ⟨fun h => absurd rfl h.1, fun _ => ?_⟩
      rw [setChange_remove_none, visible_none]
      exact visible_createNodes_slash g.base pre hk hp b
    · refine ⟨fun _ => ?_, fun h => absurd ⟨by simp [Covered], nil_prefix⟩ h⟩
      rw [htree, path_nil, prune_nil]
    · refine ⟨fun _ => ?_, fun h => absurd ⟨by simp [Covered], nil_prefix⟩ h⟩
      rw [nil_append, setChange_empty g none pre hn [], vivify_remove, setChange_end g none _ hn]
      exact visible_newTree none .nil p b
  | cons s k ih =>
    obtain ⟨hs, hk'⟩ := plain_cons.mp hk
    rw [path_cons_of_ne hs]
    rcases node_cases node with rfl | ⟨newtree, kids, rfl⟩ | ⟨n, rfl, hn⟩
    · refine ⟨fun h => absurd h.1 id, fun _ => ?_⟩
      rw [setChange_remove_none, visible_none]
      exact visible_createNodes_slash g.base pre hk hp b
    · have hcovered : Covered (some ⟨.newTree newtree, kids⟩) (fold s :: path k) :=
        Or.inl id
      rw [htree, visible_newTree, path_cons_of_ne hs, prune]
      exact ⟨fun h => if_pos h.2, fun h => if_neg fun hpre => h ⟨hcovered, hpre⟩⟩
    · obtain ⟨next, hnext, hstep⟩ := setChange_remove_through g pre hn hs (k ++ [[]])
      have hcovered : Covered (some n) (fold s :: path k) ↔
          Covered (n.kids.lookup (fold s)) (path k) := by
        simp [Covered, hn]
      have hthrough : Change.Through
          (val (⟨n.val, n.kids.insert s next⟩ : UniConfChangeTree)) := hn
      rw [cons_append, hstep, hcovered]
      cases p with
      | nil =>
        have hroot : visible (some ⟨n.val, n.kids.insert s next⟩) [] b = visible (some n) [] b := by
          obtain ⟨mode, kids⟩ := n
          cases mode <;> rfl
        exact ⟨fun h => by simpa using h.2, fun _ => hroot⟩
      | cons t p =>
        have hp' : [] ∉ p := fun h => hp (mem_cons_of_mem _ h)
        rw [visible_cons hthrough, visible_cons hn, lookup_insert]
        by_cases ht : t = fold s
        · obtain ⟨h1, h2⟩ := ih (pre ++ [s]) (n.kids.lookup (fold s)) hk' hp'
          rw [hnext] at h1 h2
          rw [if_pos ht, ht, cons_prefix_cons]
          refine ⟨fun h => h1 ⟨h.1, h.2.2⟩, fun h => h2 fun h' => h ⟨h'.1, rfl, h'.2⟩⟩
        · rw [if_neg ht, cons_prefix_cons]
          exact ⟨fun h => absurd h.2.1.symm ht, fun _ => rfl⟩

/-! ## Values -/

theorem getLoop_setChange_slash (g : UniTransactionGen) (base : UniTempGen) (value : Str)
    (pre pre' : UniConfKey) (node : Option UniConfChangeTree) {rest : UniConfKey}
    (hpre : pre.Plain) (hrest : rest.Plain) :
    getLoop base pre' (setChange g (some value) pre node rest).1 (rest ++ [[]]) = some value := by
  have htree : ∀ (newtree : Option UniConfValueTree) (kids : Forest Segment Change)
      (pre pre' : UniConfKey) {rest : UniConfKey}, rest.Plain →
      getLoop base pre' (setChange g (some value) pre (some ⟨.newTree newtree, kids⟩) rest).1
        (rest ++ [[]]) = some value := by
    intro newtree kids pre pre' rest hrest
    have hcontent : contents (setValue newtree pre rest (some value)).1 rest.path =
        some value := by
      rw [contents_setValue newtree pre hrest]
      exact assign_some_self [] _ _ _
    rw [setChange_newTree, getLoop_newTree, path_slash, hcontent]
  have hcreate : ∀ (pre pre' : UniConfKey) {rest : UniConfKey}, rest.Plain →
      getLoop base pre' (some (createNodes g.base (some value) pre rest).1) (rest ++ [[]]) =
        some value := by
    intro pre pre' rest hrest
    induction rest generalizing pre pre' with
    | nil => rfl
    | cons s rest ih =>
      obtain ⟨hs, hrest⟩ := plain_cons.mp hrest
      have hthrough : Change.Through (createNodes g.base (some value) pre (s :: rest)).1.val :=
        trivial
      have hlookup : (createNodes g.base (some value) pre (s :: rest)).1.kids.lookup (fold s) =
          some (createNodes g.base (some value) (pre ++ [s]) rest).1 :=
        lookup_insert_self _ _ _
      rw [cons_append, getLoop_through base _ hthrough, findchild_of_ne hs, hlookup]
      exact ih _ _ hrest
  induction rest generalizing pre pre' node with
  | nil =>
    rcases node_cases node with rfl | ⟨newtree, kids, rfl⟩ | ⟨n, rfl, hn⟩
    · rw [setChange_none g (some value) (hpre.append hrest)]
      exact hcreate pre pre' hrest
    · exact htree newtree kids pre pre' hrest
    · rw [setChange_end g (some value) pre hn]
      rfl
  | cons s rest ih =>
    obtain ⟨hs, hrest'⟩ := plain_cons.mp hrest
    rcases node_cases node with rfl | ⟨newtree, kids, rfl⟩ | ⟨n, rfl, hn⟩
    · rw [setChange_none g (some value) (hpre.append hrest)]
      exact hcreate pre pre' hrest
    · exact htree newtree kids pre pre' hrest
    · have hpre' : Plain (pre ++ [s]) := hpre.concat hs
      obtain ⟨next, hsome⟩ := setChange_isSome g (some value) (hpre'.append hrest')
        (n.kids.lookup (fold s))
      have hchild := ih (pre ++ [s]) (pre' ++ [s]) (n.kids.lookup (fold s)) hpre' hrest'
      rw [hsome] at hchild
      rw [setChange_through g (some value) pre hn hs rest]
      simp only [hsome, elim_some, vivify_kids]
      have hthrough := vivify_through g.base (some value) pre hn
      rw [cons_append, getLoop_through base _ (by exact hthrough), findchild_of_ne hs,
        lookup_insert_self]
      exact hchild

theorem content_setValueLoop_slash (value : Str) (pre : UniConfKey)
    (node : Option UniConfValueTree) (hk : k.Plain) :
    Tree.content (setValueLoop value pre node (k ++ [[]])).1 k.path ≠ none := by
  have hcreate : ∀ (pre k : UniConfKey), k.Plain →
      Tree.content (createValue value pre (k ++ [[]])).1 k.path ≠ none := by
    intro pre k hk
    have hpre : k.path <+: (k ++ [[]]).map fold := by
      rw [hk.path_eq, map_append]
      exact prefix_append _ _
    have hne : k.path ≠ (k ++ [[]]).map fold := by
      intro e
      have := congrArg length e
      simp [hk.path_eq] at this
    rw [createValue_tree, content_write, assign_some_ancestor [] _ value hpre hne]
    simp
  induction k generalizing pre node with
  | nil =>
    rw [path_nil, content_nil]
    simp
  | cons s k ih =>
    obtain ⟨hs, hk'⟩ := plain_cons.mp hk
    cases node with
    | none => exact hcreate pre (s :: k) hk
    | some node =>
      have h := ih (pre ++ [s]) (node.kids.lookup (fold s)) hk'
      simp only [cons_append, setValueLoop, if_neg hs]
      rw [path_cons_of_ne hs, content_cons, lookup_insert_self]
      exact h

theorem get_setChange_newTree (base : UniTempGen) (pre : UniConfKey) (g : UniTransactionGen)
    (value : Str) (pre' : UniConfKey) (newtree : Option UniConfValueTree)
    (kids : Forest Segment Change) (hk : k.Plain) :
    getLoop base pre (setChange g (some value) pre' (some ⟨.newTree newtree, kids⟩) (k ++ [[]])).1
      (k ++ [[]]) ≠ none := by
  rw [setChange_newTree, getLoop_newTree, path_slash]
  exact content_setValueLoop_slash value pre' newtree hk

theorem getLoop_end_ne_none (base : UniTempGen) (pre : UniConfKey) (hthrough : node.val.Through)
    (hblank : node.val ≠ .blank) : getLoop base pre (some node) [] ≠ none := by
  obtain ⟨mode, kids⟩ := node
  cases mode with
  | newTree newtree => exact absurd hthrough id
  | newValue newvalue => simp [getLoop]
  | newNode flag =>
    cases h : base.get pre with
    | none => simp [getLoop, h]
    | some b => by_cases hb : b = [] <;> simp [getLoop, h, hb]
  | blank => exact absurd rfl hblank

theorem setChange_through_val (g : UniTransactionGen) (value : Str) (pre : UniConfKey)
    (hnode : node.val.Through) (rest : UniConfKey) :
    ∃ n : UniConfChangeTree, (setChange g (some value) pre (some node) rest).1 = some n ∧
      n.val.Through ∧ n.val ≠ .blank := by
  have hvivify : ∀ (pre : UniConfKey) {node : UniConfChangeTree}, node.val.Through →
      (vivify g.base (some value) pre node).1.val ≠ .blank := by
    intro pre node hnode
    unfold vivify
    split
    · simp [newNode]
    · rename_i h
      exact fun hblank => h ⟨hblank, by simp⟩
  induction rest generalizing pre node with
  | nil =>
    rw [setChange_end g (some value) pre hnode]
    exact ⟨_, rfl, trivial, by simp [changeNode]⟩
  | cons s rest ih =>
    have hthrough := vivify_through g.base (some value) pre hnode
    by_cases hs : s = []
    · rw [hs, setChange_empty g (some value) pre hnode rest]
      exact ih (pre ++ [[]]) hthrough
    · rw [setChange_through g (some value) pre hnode hs rest]
      dsimp only
      cases (setChange g (some value) (pre ++ [s]) (node.kids.lookup (fold s)) rest).1 with
      | none | some next => exact ⟨_, rfl, hthrough, hvivify pre hnode⟩

theorem setChange_none_slash (g : UniTransactionGen) (value : Str) (pre k : UniConfKey) :
    setChange g (some value) pre none (k ++ [[]]) = (none, []) := by
  have hcreate : setChange g (some value) pre none (k ++ [[]]) =
      createChange g.base (some value) pre (k ++ [[]]) := by
    cases k <;> rfl
  rw [hcreate, createChange, ← append_assoc, slash_hastrailingslash]
  rfl

/-! ## One set -/

theorem visible_of_not_covered {node : Option UniConfChangeTree} (h : ¬ Covered node p)
    (q : List Segment) (b : WvString) : visible node (p ++ q) b = b := by
  induction p generalizing node with
  | nil =>
    obtain rfl : node = none := by simpa [Covered] using h
    exact visible_none _ b
  | cons s p ih =>
    cases node with
    | none => rfl
    | some node =>
      obtain ⟨hthrough, hnext⟩ := not_or.mp h
      rw [cons_append, visible_cons (not_not.mp hthrough)]
      exact ih hnext

theorem Bare.of_quiet {root : Option UniConfChangeTree} (h : QuietTree root) : Bare root := by
  rintro node rfl s -
  obtain ⟨hroot, hkids⟩ := everywhere_some.mp h
  refine ⟨?_, fun _ => hkids s⟩
  intro newtree hmode
  obtain rfl : newtree = none := by simpa [Change.Quiet, hmode] using hroot
  rfl

theorem Bare.remove (h : Bare g.root) (hkey : key.Valid) : Bare (g.set key none).1.root := by
  show Bare (setChange g none [] g.root key).1
  rcases node_cases g.root with hroot | ⟨newtree, kids, hroot⟩ | ⟨n, hroot, hn⟩
  · rw [hroot, setChange_remove_none]
    exact Bare.of_quiet (quiet_createNodes g.base [] key)
  · rw [hroot, setChange_newTree]
    rintro node hnode s hs
    obtain rfl := some.inj hnode
    refine ⟨?_, fun hthrough => absurd hthrough id⟩
    rintro newtree' hmode
    obtain rfl := Change.newTree.inj hmode
    rw [contents_setValue_none, prune]
    split
    · rfl
    · exact (h _ hroot s hs).1 newtree rfl
  · rw [hroot]
    cases key with
    | nil =>
      rw [setChange_end g none [] hn]
      apply Bare.of_quiet
      exact everywhere_some.mpr ⟨Or.inr rfl, fun _ => everywhere_none _⟩
    | cons s rest =>
      obtain ⟨next, hnext, hstep⟩ := setChange_remove_through g [] hn hkey.head_ne rest
      have hquiet : ∀ t, t ≠ ([] : Segment) → QuietTree (n.kids.lookup t) :=
        fun t ht => (h n hroot t ht).2 hn
      have hfold : fold s ≠ ([] : Segment) := by simpa using hkey.head_ne
      have hchild := quiet_remove g ([] ++ [s]) (hquiet (fold s) hfold) rest
      rw [hnext] at hchild
      rw [hstep]
      rintro node hnode t ht
      obtain rfl := some.inj hnode
      refine ⟨?_, ?_⟩
      · intro newtree hmode
        have hmode' : n.val = .newTree newtree := hmode
        rw [hmode'] at hn
        exact absurd hn id
      · intro _
        rw [lookup_insert]
        split
        · exact hchild
        · exact hquiet t ht

theorem Agrees.remove_plain (h : Agrees g ref) (hkey : key.Plain) :
    Agrees (g.set key none).1 (ref.set key none).1 := by
  refine ⟨h.bare.remove hkey.valid, ?_⟩
  intro p hp
  have hview : (g.set key none).1.view = assign [] g.view key.path none :=
    overlay_setChange g none plain_nil g.root hkey g.base.content
  rw [hview, content_set, refSet_plain _ hkey, assign_none, assign_none, prune, prune, h.view p hp]

theorem view_remove_slash (g : UniTransactionGen) (hk : k.Plain) (hp : [] ∉ p) :
    (Covered g.root k.path → (g.set (k ++ [[]]) none).1.view p = g.view.prune k.path p) ∧
    (¬ Covered g.root k.path → (g.set (k ++ [[]]) none).1.view p = g.view p) := by
  obtain ⟨h1, h2⟩ := visible_remove_slash g [] g.root hk hp (g.base.content p)
  constructor
  · intro hcovered
    rw [prune]
    split
    · rename_i hpre
      exact h1 ⟨hcovered, hpre⟩
    · rename_i hpre
      exact h2 fun h => hpre h.2
  · intro hcovered
    exact h2 fun h => hcovered h.1

theorem refSet_slash_none (m : PathMap Segment Str) (k : UniConfKey) :
    refSet m (k ++ [[]]) none = m.prune k.path := by
  rw [refSet, path_slash]
  simp

theorem refSet_slash_some (m : PathMap Segment Str) (k : UniConfKey) (value : Str) :
    refSet m (k ++ [[]]) (some value) = m := by
  rw [refSet, slash_hastrailingslash]
  rfl

theorem Agrees.remove_slash (h : Agrees g ref) (hne : k ≠ []) (hk : k.Plain)
    (hok : Covered g.root k.path ∨ g.base.exists_ k = false) :
    Agrees (g.set (k ++ [[]]) none).1 (ref.set (k ++ [[]]) none).1 := by
  have hvalid : Valid (k ++ [[]]) := valid_slash hne hk
  refine ⟨h.bare.remove hvalid, ?_⟩
  intro p hp
  obtain ⟨hcovered, hnot⟩ := view_remove_slash g hk hp
  rw [content_set, refSet_slash_none, prune, ← h.view p hp]
  by_cases hc : Covered g.root k.path
  · rw [hcovered hc, prune]
  · rw [hnot hc]
    have hbase : g.base.content k.path = none := by
      have hlacks := hok.resolve_left hc
      rw [exists_, g.base.get_of_plain hk] at hlacks
      simpa using hlacks
    split
    · rename_i hpre
      obtain ⟨q, rfl⟩ := hpre
      show visible g.root (k.path ++ q) (g.base.content (k.path ++ q)) = none
      rw [visible_of_not_covered hc q]
      exact g.base.content_closed _ q hbase
    · rfl

theorem Agrees.set_root (h : Agrees g ref) (value : Str) :
    Agrees (g.set [] (some value)).1 (ref.set [] (some value)).1 := by
  have hplain : Plain [] := plain_nil
  constructor
  · show Bare (setChange g (some value) [] g.root []).1
    rcases node_cases g.root with hroot | ⟨newtree, kids, hroot⟩ | ⟨n, hroot, hn⟩
    · rw [hroot, setChange_none g (some value) hplain]
      rintro node hnode s -
      obtain rfl := some.inj hnode
      exact ⟨nofun, fun _ => everywhere_none _⟩
    · rw [hroot, setChange_newTree]
      rintro node hnode s hs
      obtain rfl := some.inj hnode
      refine ⟨?_, fun hthrough => absurd hthrough id⟩
      rintro newtree' hmode
      obtain rfl := Change.newTree.inj hmode
      have hbelow := assign_nil_below [] (contents newtree) s value
      have hcontents := contents_setValue newtree [] hplain (some value)
      rw [hcontents]
      exact (congrFun hbelow []).trans ((h.bare _ hroot s hs).1 newtree rfl)
    · rw [hroot, setChange_end g (some value) [] hn]
      rintro node hnode s hs
      obtain rfl := some.inj hnode
      exact ⟨nofun, fun _ => (h.bare n hroot s hs).2 hn⟩
  · intro p hp
    have hview : (g.set [] (some value)).1.view = assign [] g.view [] (some value) :=
      overlay_setChange g (some value) hplain g.root hplain g.base.content
    rw [hview, content_set, refSet_plain _ hplain]
    cases p with
    | nil => rw [path_nil, assign_some_self, assign_some_self]
    | cons s p =>
      have hpre : ¬ s :: p <+: [] := by simp
      rw [path_nil, assign_some_other [] _ value hpre,
        assign_some_other [] _ value hpre, h.view _ hp]

theorem Agrees.set_ignored (h : Agrees g ref) (hne : k ≠ []) (hk : k.Plain) (value : Str)
    (hignored : Ignored g (k ++ [[]])) :
    Agrees (g.set (k ++ [[]]) (some value)).1 (ref.set (k ++ [[]]) (some value)).1 := by
  have href : (ref.set (k ++ [[]]) (some value)).1.content = ref.content := by
    rw [content_set, refSet_slash_some]
  cases hroot : g.root with
  | none =>
    have hstep : (g.set (k ++ [[]]) (some value)).1 = g := by
      have hnone := setChange_none_slash g value [] k
      simp only [set, hroot, hnone]
      rw [← hroot]
    rw [hstep]
    exact ⟨h.bare, fun p hp => by rw [href, h.view p hp]⟩
  | some root =>
    obtain ⟨hn, hlookup, hbase⟩ := hignored root hroot
    obtain ⟨s, rest, rfl⟩ := exists_cons_of_ne_nil hne
    obtain ⟨hs, -⟩ := plain_cons.mp hk
    have hstep : (g.set (s :: rest ++ [[]]) (some value)).1.root =
        some ⟨(vivify g.base (some value) [] root).1.val, root.kids⟩ := by
      have hlookup' : root.kids.lookup (fold s) = none := hlookup
      have hnone := setChange_none_slash g value ([] ++ [s]) rest
      have hthrough := setChange_through g (some value) [] hn hs (rest ++ [[]])
      rw [hlookup', hnone] at hthrough
      have hkeep : (vivify g.base (some value) [] root).1 =
          ⟨(vivify g.base (some value) [] root).1.val, root.kids⟩ := by
        rw [← vivify_kids g.base (some value) [] root]
      show (setChange g (some value) [] g.root (s :: (rest ++ [[]]))).1 = _
      rw [hroot, hthrough, ← hkeep]
      rfl
    have hthrough := vivify_through g.base (some value) [] hn
    constructor
    · rw [hstep]
      rintro node hnode t ht
      obtain rfl := some.inj hnode
      refine ⟨?_, fun _ => (h.bare root hroot t ht).2 hn⟩
      intro newtree hmode
      have hmode' : (vivify g.base (some value) [] root).1.val = .newTree newtree := hmode
      rw [hmode'] at hthrough
      exact absurd hthrough id
    · intro p hp
      suffices hview : visible (g.set (s :: rest ++ [[]]) (some value)).1.root p
          (g.base.content p) = visible g.root p (g.base.content p) by
        rw [href, ← h.view p hp]
        exact hview
      rw [hstep, hroot]
      cases p with
      | nil =>
        have hseen : visible (some root) [] (g.base.content []) ≠ none := by
          obtain ⟨mode, kids⟩ := root
          cases mode with
          | newTree newtree => exact absurd hn id
          | newValue newvalue | newNode flag => simp [visible]
          | blank =>
            have hexists := hbase rfl
            rw [exists_, g.base.get_of_plain plain_nil] at hexists
            exact isSome_iff_ne_none.mp hexists
        obtain ⟨v, hv⟩ := ne_none_iff_exists'.mp hseen
        show visible _ [] (g.base.content []) = _
        rw [vivify_visible g.base (some value) [] hn root.kids, hv]
        rfl
      | cons t p =>
        rw [visible_cons (by exact hthrough), visible_cons hn]

/-! ## The sets after which the generators differ -/

theorem get_set_plain (g : UniTransactionGen) (hkey : key.Plain) (value : Str) :
    (g.set key (some value)).1.get (key ++ [[]]) = some value :=
  getLoop_setChange_slash g g.base value [] [] g.root plain_nil hkey

theorem get_set_slash (hne : k ≠ []) (hk : k.Plain) (value : Str)
    (hignored : ¬ Ignored g (k ++ [[]])) :
    (∃ k', k' ≠ [] ∧ Plain k' ∧ (g.set (k ++ [[]]) (some value)).1.get (k' ++ [[]]) ≠ none) ∨
    (g.get [] = none ∧ (g.set (k ++ [[]]) (some value)).1.get [] ≠ none) := by
  obtain ⟨root, hroot, hnot⟩ : ∃ root, g.root = some root ∧
      ¬ (root.val.Through ∧ root.kids.lookup (fold ((k ++ [[]]).headD [])) = none ∧
        (root.val = .blank → g.base.exists_ [] = true)) := by
    simpa only [Ignored, not_forall, exists_prop] using hignored
  have hget : ∀ key, (g.set (k ++ [[]]) (some value)).1.get key =
      getLoop g.base [] (setChange g (some value) [] (some root) (k ++ [[]])).1 key := by
    intro key
    rw [← hroot]
    rfl
  simp only [hget]
  rcases node_cases (some root) with hcase | ⟨newtree, kids, hcase⟩ | ⟨n, hcase, hn⟩
  · cases hcase
  · left
    obtain rfl := some.inj hcase
    exact ⟨k, hne, hk, get_setChange_newTree g.base [] g value [] newtree kids hk⟩
  · obtain rfl := some.inj hcase
    obtain ⟨s, rest, rfl⟩ := exists_cons_of_ne_nil hne
    obtain ⟨hs, hrest⟩ := plain_cons.mp hk
    have hthrough := vivify_through g.base (some value) [] hn
    have hstep := setChange_through g (some value) [] hn hs (rest ++ [[]])
    cases hlookup : root.kids.lookup (fold s) with
    | none =>
      right
      have hblank : root.val = .blank ∧ g.base.exists_ [] = false := by
        by_contra hall
        apply hnot
        refine ⟨hn, hlookup, ?_⟩
        intro hmode
        by_contra hlacks
        exact hall ⟨hmode, by simpa using hlacks⟩
      obtain ⟨n, hsome, hval, hmode⟩ :=
        setChange_through_val g value [] hn (s :: rest ++ [[]])
      rw [hsome]
      refine ⟨?_, getLoop_end_ne_none g.base [] hval hmode⟩
      have hbase : g.base.get [] = none := by
        have hlacks := hblank.2
        rw [exists_] at hlacks
        simpa using hlacks
      obtain ⟨mode, kids⟩ := root
      obtain rfl : mode = .blank := hblank.1
      rw [get, hroot]
      exact hbase
    | some child =>
      left
      have hchild : ∀ next,
          (setChange g (some value) ([] ++ [s]) (some child) (rest ++ [[]])).1 = some next →
          ∀ key, getLoop g.base [] (setChange g (some value) [] (some root)
              (s :: rest ++ [[]])).1 (s :: key) = getLoop g.base ([] ++ [s]) (some next) key := by
        intro next hnext key
        rw [cons_append, hstep]
        simp only [hlookup, hnext, elim_some, vivify_kids]
        rw [getLoop_through g.base [] (by exact hthrough), findchild_of_ne hs,
          lookup_insert_self]
      rcases node_cases (some child) with hcase | ⟨newtree, kids, hcase⟩ | ⟨n, hcase, hc⟩
      · cases hcase
      · obtain rfl := some.inj hcase
        have hvalue := get_setChange_newTree g.base ([] ++ [s]) g value ([] ++ [s]) newtree kids
          hrest
        have hnewTree := setChange_newTree g (some value) ([] ++ [s]) (rest ++ [[]]) newtree kids
        refine ⟨s :: rest, hne, hk, ?_⟩
        have hread := hchild _ (congrArg Prod.fst hnewTree) (rest ++ [[]])
        rw [hnewTree] at hvalue
        exact hread ▸ hvalue
      · obtain rfl := some.inj hcase
        obtain ⟨next, hnext, hval, hmode⟩ :=
          setChange_through_val g value ([] ++ [s]) hc (rest ++ [[]])
        refine ⟨[s], by simp, plain_cons.mpr ⟨hs, plain_nil⟩, ?_⟩
        have hread := hchild next hnext [[]]
        rw [singleton_append, hread, getLoop_through g.base ([] ++ [s]) hval]
        exact getLoop_end_ne_none g.base _ hval hmode

theorem Agrees.set (h : Agrees g ref) (hkey : key.Valid) {value : WvString}
    (hok : SlashOk g key value) : Agrees (g.set key value).1 (ref.set key value).1 := by
  cases value with
  | none =>
    rcases hkey.cases with hplain | ⟨k, hne, hk, rfl⟩
    · exact h.remove_plain hplain
    · have hslash := hok (slash_hastrailingslash k)
      rw [dropLast_concat] at hslash
      exact h.remove_slash hne hk hslash
  | some value =>
    rcases hkey.cases with hplain | ⟨k, hne, hk, rfl⟩
    · have hroot : key = [] := by simpa [SlashOk, hplain.not_slash] using hok
      rw [hroot]
      exact h.set_root value
    · have hignored : Ignored g (k ++ [[]]) := by
        simpa [SlashOk, slash_hastrailingslash] using hok
      exact h.set_ignored hne hk value hignored

theorem Agrees.slashOk (h : Agrees g ref) (hkey : key.Valid) {value : WvString}
    (hget : ∀ k : ValidKey, (g.set key value).1.get k = (ref.set key value).1.get k) :
    SlashOk g key value := by
  cases value with
  | none =>
    intro hslash
    rcases hkey.cases with hplain | ⟨k, hne, hk, rfl⟩
    · rw [hplain.not_slash] at hslash
      cases hslash
    · rw [dropLast_concat]
      by_contra hnot
      obtain ⟨hcovered, hbase⟩ := not_or.mp hnot
      have hfound := hget ⟨k, hk.valid⟩
      have hplainPath : ([] : Segment) ∉ path k := hk.not_mem_path
      have hshown : g.view k.path = g.base.content k.path := by
        have hshow := visible_of_not_covered hcovered [] (g.base.content k.path)
        rw [append_nil] at hshow
        exact hshow
      rw [get_eq _ hk, (view_remove_slash g hk hplainPath).2 hcovered, hshown,
        UniTempGen.get_of_plain _ hk, UniTempGen.content_set, refSet_slash_none,
        prune, if_pos (prefix_refl _)] at hfound
      apply hbase
      rw [UniTempGen.exists_, g.base.get_of_plain hk, hfound]
      rfl
  | some value =>
    rcases hkey.cases with hplain | ⟨k, hne, hk, rfl⟩
    · by_cases hroot : key = []
      · subst hroot
        simp [SlashOk, plain_nil.not_slash]
      · have hfound := hget ⟨key ++ [[]], valid_slash hroot hplain⟩
        rw [get_set_plain g hplain, base_get_slash] at hfound
        cases hfound
    · simp only [SlashOk, slash_hastrailingslash, if_true]
      by_contra hignored
      rcases get_set_slash hne hk value hignored with ⟨k', hne', hk', hsome⟩ | ⟨hnone, hsome⟩
      · have hfound := hget ⟨k' ++ [[]], valid_slash hne' hk'⟩
        rw [base_get_slash] at hfound
        exact hsome hfound
      · have hfound := hget ⟨[], plain_nil.valid⟩
        have hbefore := h.get ⟨[], plain_nil.valid⟩
        rw [UniTempGen.get_eq, UniTempGen.content_set, refSet_slash_some, ← UniTempGen.get_eq,
          ← hbefore] at hfound
        exact hsome (hfound.trans hnone)

/-! ## Sequences of sets -/

abbrev ValidSet := ValidKey × WvString

/-- The transaction over a base and a generator with the base's content, after some sets of
both. -/
def setBoth (base : UniTempGen) (sets : List ValidSet) : UniTransactionGen × UniTempGen :=
  sets.foldl (fun s p => ((s.1.set p.1 p.2).1, (s.2.set p.1 p.2).1)) (create base, base)

theorem setBoth_concat (base : UniTempGen) (sets : List ValidSet) (p : ValidSet) :
    setBoth base (sets ++ [p]) =
      (((setBoth base sets).1.set p.1 p.2).1, ((setBoth base sets).2.set p.1 p.2).1) := by
  simp [setBoth]

theorem agrees_create (base : UniTempGen) : Agrees (create base) base where
  bare := nofun
  view _ _ := congrFun (overlay_none base.content) _

theorem agrees_setBoth {base : UniTempGen} {sets : List ValidSet}
    (hok : ∀ done p, done ++ [p] <+: sets → SlashOk (setBoth base done).1 p.1 p.2) :
    Agrees (setBoth base sets).1 (setBoth base sets).2 := by
  induction sets using reverseRecOn with
  | nil => exact agrees_create base
  | append_singleton sets p ih =>
    have hbefore := ih fun done p' h => hok done p' (h.trans (prefix_append _ _))
    rw [setBoth_concat]
    exact hbefore.set p.1.2 (hok sets p (prefix_refl _))

/-- A transaction and a generator with the same content and sets agree at every key after each
of the sets exactly if every set meets the condition. -/
theorem slash_agree_iff (base : UniTempGen) (sets : List ValidSet) :
    (∀ done, done <+: sets →
      ∀ key : ValidKey, (setBoth base done).1.get key = (setBoth base done).2.get key) ↔
    ∀ done p, done ++ [p] <+: sets → SlashOk (setBoth base done).1 p.1 p.2 := by
  constructor
  · intro hall
    induction sets using reverseRecOn with
    | nil => exact fun done p h => by simp at h
    | append_singleton sets p ih =>
      have hbefore := ih fun done h => hall done (h.trans (prefix_append _ _))
      intro done p' hpre
      rcases prefix_concat_iff.mp hpre with heq | hpre
      · obtain ⟨rfl, hp⟩ := append_inj' heq rfl
        obtain rfl : p' = p := by simpa using hp
        have hafter := hall (done ++ [p']) (prefix_refl _)
        rw [setBoth_concat] at hafter
        exact (agrees_setBoth hbefore).slashOk p'.1.2 hafter
      · exact hbefore done p' hpre
  · intro hok done hdone key
    exact (agrees_setBoth fun done' p h => hok done' p (h.trans hdone)).get key

/-- `a` = 1, then `a/` is read: the value instead of none. -/
theorem slash_agree_fails :
    let s := setBoth empty [(⟨[[97]], Plain.valid (by decide)⟩, some [49])]
    s.1.get [[97], []] = some [49] ∧ s.2.get [[97], []] = none := by
  decide

end UniTransactionGen

end WvStreams
