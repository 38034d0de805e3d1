import WvStreams.UniConf.Transaction.Basic

/-!
# `UniTransactionGen::set`

A set changes the tree of pending changes. Whatever the base holds, the values seen
afterwards are those seen before with the set carried out on them (`overlay_setChange`), and
the tree stays coherent (`coherent_setChange`).
-/

namespace WvStreams

open Lib UniConfKey PathMap Lib.Tree

namespace UniTransactionGen

/-! ## Replacement trees -/

/-- `create_value`: the node for the segments `pre`, with those to come below it. -/
def createValue (value : Str) (pre : UniConfKey) : UniConfKey → UniConfValueTree × List Delta
  | [] => (⟨value, .nil⟩, [⟨pre, some value⟩])
  | s :: rest =>
    let (child, ds) := createValue value (pre ++ [s]) rest
    (⟨[], Forest.insert .nil s child⟩, ⟨pre, some []⟩ :: ds)

def setValueLoop (value : Str) (pre : UniConfKey) (node : Option UniConfValueTree)
    (rest : UniConfKey) : UniConfValueTree × List Delta :=
  match node with
  | none => createValue value pre rest
  | some node =>
    match rest with
    | [] => if value ≠ node.val then (⟨value, node.kids⟩, [⟨pre, some value⟩]) else (node, [])
    | s :: rest =>
      -- `findchild` of an empty segment is the node itself
      if s = [] then setValueLoop value (pre ++ [s]) (some node) rest
      else
        let (child, ds) := setValueLoop value (pre ++ [s]) (node.kids.lookup (fold s)) rest
        (⟨node.val, node.kids.insert s child⟩, ds)

/-- A `visit` of `deletion_visitor`: the keys of a subtree, descendants first. The subtree's own
key is reported with a trailing slash. -/
def visitDeleted (subnode : UniConfValueTree) (key : UniConfKey) : List Delta :=
  (subnode.postorder []).map fun k => ⟨UniConfKey.concat key k, none⟩

def setValue (node : Option UniConfValueTree) (pre rest : UniConfKey) (value : WvString) :
    Option UniConfValueTree × List Delta :=
  match value with
  | none =>
    match node with
    | none => (none, [])
    | some node =>
      match UniConfTree.find node rest with
      | none => (some node, [])
      | some subnode =>
        (Tree.remove node (rest.filter (· ≠ [])), visitDeleted subnode (pre ++ rest))
  | some value =>
    let (node, ds) := setValueLoop value pre node rest
    (some node, ds)

/-! ## Simulated deletions -/

/-- `deletion_simulator` and `deletion_simulator2`, which differ in the iterator they use.
The recursion ends with the levels of keys. -/
def deletionSim (iter : UniConfKey → List (Segment × Str)) : Nat → UniConfKey → List Delta
  | 0, key => [⟨key, none⟩]
  | levels + 1, key =>
    (iter key).flatMap (fun c => deletionSim iter levels (UniConfKey.concat key [c.1])) ++
      [⟨key, none⟩]

def baseHeight (base : UniTempGen) : Nat := (base.root.map Lib.Tree.height).getD 0

def newtreeHeight : Change → Nat
  | .newTree (some newtree) => newtree.height
  | _ => 0

def changeHeight : Forest Segment Change → Nat
  | .nil => 0
  | .cons _ mode sub rest =>
    max (max (newtreeHeight mode) (changeHeight sub) + 1) (changeHeight rest)

def height (g : UniTransactionGen) : Nat :=
  max (baseHeight g.base)
    ((g.root.map fun node => max (newtreeHeight node.val) (changeHeight node.kids)).getD 0)

def deletionSimulator (base : UniTempGen) (key : UniConfKey) : List Delta :=
  deletionSim base.iterator (baseHeight base) key

def deletionSimulator2 (g : UniTransactionGen) (key : UniConfKey) : List Delta :=
  deletionSim g.iterator g.height key

/-! ## Changes -/

/-- A `NEWNODE` for a key: its flag is taken from the base, and the key is announced if the
base does not have it. -/
def newNode (base : UniTempGen) (nodekey : UniConfKey) : Change × List Delta :=
  (.newNode (base.get nodekey).not, if (base.get nodekey).isNone then [⟨nodekey, some []⟩] else [])

/-- The nodes that `create_change` makes for the segments `pre` and those to come. -/
def createNodes (base : UniTempGen) (value : WvString) (pre : UniConfKey) :
    UniConfKey → UniConfChangeTree × List Delta
  | [] =>
    match value with
    | none =>
      (⟨.newTree none, .nil⟩, if base.exists_ pre then deletionSimulator base pre else [])
    | some value =>
      (⟨.newValue value, .nil⟩, if base.get pre ≠ some value then [⟨pre, some value⟩] else [])
  | s :: rest =>
    let (mode, ds) := if value = none then (.blank, []) else newNode base pre
    let (child, ds') := createNodes base value (pre ++ [s]) rest
    (⟨mode, Forest.insert .nil s child⟩, ds ++ ds')

/-- `create_change`: nothing is created for a value at a key with a trailing slash. -/
def createChange (base : UniTempGen) (value : WvString) (pre rest : UniConfKey) :
    Option UniConfChangeTree × List Delta :=
  if UniConfKey.hastrailingslash (pre ++ rest) && value.isSome then (none, [])
  else
    let (node, ds) := createNodes base value pre rest
    (some node, ds)

/-- The end of `set_change`: the node was found and is no `NEWTREE`. -/
def changeNode (g : UniTransactionGen) (value : WvString) (key : UniConfKey)
    (subnode : UniConfChangeTree) : UniConfChangeTree × List Delta :=
  match value with
  | none =>
    (⟨.newTree none, .nil⟩,
      if subnode.val ≠ .blank || g.base.exists_ key then deletionSimulator2 g key else [])
  | some value =>
    (⟨.newValue value, subnode.kids⟩, match subnode.val with
      | .newValue newvalue => if newvalue ≠ value then [⟨key, some value⟩] else []
      | .blank => if g.base.get key ≠ some value then [⟨key, some value⟩] else []
      | _ =>
        -- `NEWNODE`: announced if exactly one of the two values is empty
        let currval := g.base.get key
        if (currval.not != WvString.not (some value)) && currval != some value then
          [⟨key, some value⟩]
        else [])

/-- In the loop of `set_change` a `BLANK` node on the way to a value becomes a `NEWNODE`. -/
def vivify (base : UniTempGen) (value : WvString) (pre : UniConfKey)
    (subnode : UniConfChangeTree) : UniConfChangeTree × List Delta :=
  if subnode.val = .blank ∧ value ≠ none then
    (⟨(newNode base pre).1, subnode.kids⟩, (newNode base pre).2)
  else (subnode, [])

/-- `set_change`, with its loop: `pre` are the segments that led to `node`. -/
def setChange (g : UniTransactionGen) (value : WvString) (pre : UniConfKey)
    (node : Option UniConfChangeTree) (rest : UniConfKey) : Option UniConfChangeTree × List Delta :=
  match node with
  | none => createChange g.base value pre rest
  | some node =>
    match node.val with
    | .newTree newtree =>
      let (newtree, ds) := setValue newtree pre rest value
      (some ⟨.newTree newtree, node.kids⟩, ds)
    | _ =>
      match rest with
      | [] =>
        let (node, ds) := changeNode g value pre node
        (some node, ds)
      | s :: rest =>
        let (node, ds) := vivify g.base value pre node
        -- `findchild` of an empty segment is the node itself
        if s = [] then
          let (node, ds') := setChange g value (pre ++ [s]) (some node) rest
          (node, ds ++ ds')
        else
          let (next, ds') := setChange g value (pre ++ [s]) (node.kids.lookup (fold s)) rest
          (some (next.elim node fun next => ⟨node.val, node.kids.insert s next⟩), ds ++ ds')

def set (g : UniTransactionGen) (key : UniConfKey) (value : WvString) :
    UniTransactionGen × List Delta :=
  let (root, ds) := setChange g value [] g.root key
  (⟨root, g.base⟩, ds)

def setv (g : UniTransactionGen) :
    List (UniConfKey × WvString) → UniTransactionGen × List Delta
  | [] => (g, [])
  | (key, value) :: pairs =>
    let (g, ds) := g.set key value
    let (g, ds') := g.setv pairs
    (g, ds ++ ds')

/-! ## What a set does to a replacement tree -/

theorem createValue_tree (value : Str) (pre rest : UniConfKey) :
    (createValue value pre rest).1 = Tree.write [] none rest value := by
  induction rest generalizing pre with
  | nil => rfl
  | cons s rest ih => simp only [createValue, Tree.write, ih]

variable {rest pre : UniConfKey} {node : UniConfChangeTree} {s : Segment}
  {kids : Forest Segment Change} {m : PathMap Segment Str}

theorem setValueLoop_tree (value : Str) (pre : UniConfKey) (node : Option UniConfValueTree)
    (hrest : rest.Plain) :
    (setValueLoop value pre node rest).1 = Tree.write [] node rest value := by
  induction rest generalizing pre node with
  | nil =>
    cases node with
    | none => rfl
    | some node =>
      simp only [setValueLoop, Tree.write]
      split
      · rfl
      · rename_i h
        have hv : value = node.val := by simpa using h
        rw [hv]
  | cons s rest ih =>
    obtain ⟨hs, hrest⟩ := plain_cons.mp hrest
    cases node with
    | none => exact createValue_tree value pre (s :: rest)
    | some node => simp only [setValueLoop, if_neg hs, Tree.write, ih _ _ hrest]

theorem contents_setValue_none (node : Option UniConfValueTree) (pre rest : UniConfKey) :
    contents (setValue node pre rest none).1 = (contents node).prune rest.path := by
  cases node with
  | none => exact (prune_of_none fun _ => rfl).symm
  | some node =>
    simp only [setValue, UniConfTree.find_eq]
    split
    · rename_i hf
      exact (node.content_closed.prune_of_none ((node.content_eq_none_iff _).mpr hf)).symm
    · exact contents_remove _ _

theorem contents_setValue (node : Option UniConfValueTree) (pre : UniConfKey) (hrest : rest.Plain)
    (value : WvString) :
    contents (setValue node pre rest value).1 =
      assign [] (contents node) rest.path value := by
  cases value with
  | some value =>
    simp only [setValue, contents_some, setValueLoop_tree value pre node hrest]
    rw [content_write, hrest.path_eq]
  | none => exact contents_setValue_none node pre rest

theorem proper_setValue {node : Option UniConfValueTree}
    (hnode : ∀ t ∈ node, UniConfTree.Proper t) (pre : UniConfKey) (hrest : rest.Plain)
    (value : WvString) : ∀ t ∈ (setValue node pre rest value).1, UniConfTree.Proper t := by
  have hnames : ∀ s ∈ rest, s ≠ [] := fun s hs e => hrest (e ▸ hs)
  cases value with
  | some value =>
    intro t ht
    simp only [setValue, setValueLoop_tree value pre node hrest] at ht
    cases ht
    exact proper_write [] hnode hnames value
  | none =>
    cases node with
    | none => exact hnode
    | some node =>
      simp only [setValue]
      split
      · exact hnode
      · exact proper_remove (hnode node rfl) (UniTempGen.filter_names rest)

/-! ## What a set does to the view -/

theorem overlay_insert_self {mode : Change} (hmode : mode.Through) (kids : Forest Segment Change)
    (s : Segment) (child : UniConfChangeTree) (m : PathMap Segment Str) :
    (overlay (some ⟨mode, kids.insert s child⟩) m).below (fold s) =
      overlay (some child) (m.below (fold s)) := by
  have h : Change.Through (val (⟨mode, kids.insert s child⟩ : UniConfChangeTree)) := hmode
  rw [overlay_below h, Forest.lookup_insert_self]

theorem overlay_insert_other {mode : Change} (hmode : mode.Through) (kids : Forest Segment Change)
    {t : Segment} (ht : t ≠ fold s) (child : UniConfChangeTree) (m : PathMap Segment Str) :
    (overlay (some ⟨mode, kids.insert s child⟩) m).below t =
      overlay (kids.lookup t) (m.below t) := by
  have h : Change.Through (val (⟨mode, kids.insert s child⟩ : UniConfChangeTree)) := hmode
  rw [overlay_below h, Forest.lookup_insert, if_neg ht]

theorem overlay_createNodes (base : UniTempGen) (value : WvString) (pre : UniConfKey)
    (hrest : rest.Plain) (m : PathMap Segment Str) :
    overlay (some (createNodes base value pre rest).1) m =
      assign [] m rest.path value := by
  induction rest generalizing pre m with
  | nil =>
    rw [path_nil]
    cases value with
    | none =>
      rw [assign_none, prune_nil]
      exact overlay_newTree none .nil m
    | some value =>
      refine eq_assign_nil rfl ?_
      intro s
      have hthrough : Change.Through (val (⟨.newValue value, .nil⟩ : UniConfChangeTree)) :=
        trivial
      exact (overlay_below hthrough m s).trans (overlay_none _)
  | cons s rest ih =>
    obtain ⟨hs, hrest⟩ := plain_cons.mp hrest
    rw [path_cons_of_ne hs]
    have hself := ih (pre ++ [s]) hrest (m.below (fold s))
    cases value with
    | none =>
      have hmode : Change.Through .blank := trivial
      refine eq_assign_cons rfl ?_ ?_
      · exact (overlay_insert_self hmode .nil s _ m).trans hself
      · intro t ht
        exact (overlay_insert_other hmode .nil ht _ m).trans (overlay_none _)
    | some value =>
      have hmode : Change.Through (newNode base pre).1 := trivial
      refine eq_assign_cons rfl ?_ ?_
      · exact (overlay_insert_self hmode .nil s _ m).trans hself
      · intro t ht
        exact (overlay_insert_other hmode .nil ht _ m).trans (overlay_none _)

@[simp] theorem vivify_kids (base : UniTempGen) (value : WvString) (pre : UniConfKey)
    (node : UniConfChangeTree) : (vivify base value pre node).1.kids = node.kids := by
  unfold vivify
  split <;> rfl

theorem vivify_through (base : UniTempGen) (value : WvString) (pre : UniConfKey)
    (h : node.val.Through) : (vivify base value pre node).1.val.Through := by
  unfold vivify
  split
  · trivial
  · exact h

theorem vivify_visible (base : UniTempGen) (value : WvString) (pre : UniConfKey)
    (h : node.val.Through) (kids' : Forest Segment Change) (b : WvString) :
    visible (some ⟨(vivify base value pre node).1.val, kids'⟩) [] b =
      value.elim (visible (some node) [] b) fun _ => some ((visible (some node) [] b).getD []) := by
  obtain ⟨mode, kids⟩ := node
  cases mode with
  | newTree newtree => exact absurd h id
  | newValue newvalue | newNode flag => cases value <;> simp [vivify, visible]
  | blank => cases value <;> simp [vivify, visible, newNode]

theorem overlay_changeNode (g : UniTransactionGen) (value : WvString) (key : UniConfKey)
    (hnode : node.val.Through) (m : PathMap Segment Str) :
    overlay (some (changeNode g value key node).1) m =
      assign [] (overlay (some node) m) [] value := by
  cases value with
  | none =>
    rw [assign_none, prune_nil]
    exact overlay_newTree none .nil m
  | some value =>
    refine eq_assign_nil rfl ?_
    intro s
    rw [overlay_below hnode]
    have hthrough : Change.Through
        (val (⟨.newValue value, node.kids⟩ : UniConfChangeTree)) := trivial
    exact overlay_below hthrough m s

theorem setChange_through (g : UniTransactionGen) (value : WvString) (pre : UniConfKey)
    (h : node.val.Through) (hs : s ≠ []) (rest : UniConfKey) :
    setChange g value pre (some node) (s :: rest) =
      let node' := (vivify g.base value pre node).1
      let next := setChange g value (pre ++ [s]) (node.kids.lookup (fold s)) rest
      (some (next.1.elim node' fun next => ⟨node'.val, node'.kids.insert s next⟩),
        (vivify g.base value pre node).2 ++ next.2) := by
  refine through_cases h ?_ ?_ ?_ <;> intros <;> simp only [setChange, if_neg hs, vivify_kids]

theorem setChange_end (g : UniTransactionGen) (value : WvString) (pre : UniConfKey)
    (h : node.val.Through) :
    setChange g value pre (some node) [] =
      (some (changeNode g value pre node).1, (changeNode g value pre node).2) := by
  exact through_cases h (fun _ _ => rfl) (fun _ _ => rfl) fun _ => rfl

theorem setChange_newTree (g : UniTransactionGen) (value : WvString) (pre rest : UniConfKey)
    (newtree : Option UniConfValueTree) (kids : Forest Segment Change) :
    setChange g value pre (some ⟨.newTree newtree, kids⟩) rest =
      (some ⟨.newTree (setValue newtree pre rest value).1, kids⟩,
        (setValue newtree pre rest value).2) := by
  cases rest <;> rfl

theorem setChange_none (g : UniTransactionGen) (value : WvString) (h : Plain (pre ++ rest)) :
    setChange g value pre none rest =
      (some (createNodes g.base value pre rest).1, (createNodes g.base value pre rest).2) := by
  have hno : hastrailingslash (pre ++ rest) = false := h.not_slash
  have hcreate : setChange g value pre none rest = createChange g.base value pre rest := by
    cases rest <;> rfl
  rw [hcreate, createChange, hno]
  rfl

/-- What `set_change` looks at first. -/
theorem node_cases (node : Option UniConfChangeTree) :
    node = none ∨ (∃ newtree kids, node = some ⟨.newTree newtree, kids⟩) ∨
      ∃ n : UniConfChangeTree, node = some n ∧ n.val.Through := by
  cases node with
  | none => exact .inl rfl
  | some n =>
    obtain ⟨mode, kids⟩ := n
    cases mode with
    | newTree newtree => exact .inr (.inl ⟨newtree, kids, rfl⟩)
    | newValue newvalue | newNode flag | blank => exact .inr (.inr ⟨_, rfl, trivial⟩)

theorem setChange_isSome (g : UniTransactionGen) (value : WvString)
    (h : Plain (pre ++ rest)) (node : Option UniConfChangeTree) :
    ∃ n, (setChange g value pre node rest).1 = some n := by
  rcases node_cases node with rfl | ⟨newtree, kids, rfl⟩ | ⟨n, rfl, hn⟩
  · exact ⟨_, congrArg Prod.fst (setChange_none g value h)⟩
  · exact ⟨_, congrArg Prod.fst (setChange_newTree g value pre rest newtree kids)⟩
  · cases rest with
    | nil => exact ⟨_, congrArg Prod.fst (setChange_end g value pre hn)⟩
    | cons s rest =>
      have hs : s ≠ [] := (plain_cons.mp (plain_append.mp h).2).1
      exact ⟨_, congrArg Prod.fst (setChange_through g value pre hn hs rest)⟩

/-! ## Removals at any key -/

theorem setChange_remove_none (g : UniTransactionGen) (pre rest : UniConfKey) :
    setChange g none pre none rest =
      (some (createNodes g.base none pre rest).1, (createNodes g.base none pre rest).2) := by
  have hcreate : setChange g none pre none rest = createChange g.base none pre rest := by
    cases rest <;> rfl
  rw [hcreate, createChange, Option.isSome_none, Bool.and_false]
  rfl

theorem setChange_empty (g : UniTransactionGen) (value : WvString) (pre : UniConfKey)
    (h : node.val.Through) (rest : UniConfKey) :
    (setChange g value pre (some node) ([] :: rest)).1 =
      (setChange g value (pre ++ [[]]) (some (vivify g.base value pre node).1) rest).1 := by
  refine through_cases h ?_ ?_ ?_ <;> intros <;> simp only [setChange, if_true]

@[simp] theorem vivify_remove (base : UniTempGen) (pre : UniConfKey) (node : UniConfChangeTree) :
    (vivify base none pre node).1 = node := by
  simp [vivify]

theorem setChange_remove_isSome (g : UniTransactionGen) (pre : UniConfKey)
    (node : Option UniConfChangeTree) (rest : UniConfKey) :
    ∃ n, (setChange g none pre node rest).1 = some n := by
  induction rest generalizing pre node with
  | nil =>
    rcases node_cases node with rfl | ⟨newtree, kids, rfl⟩ | ⟨n, rfl, hn⟩
    · exact ⟨_, congrArg Prod.fst (setChange_remove_none g pre [])⟩
    · exact ⟨_, congrArg Prod.fst (setChange_newTree g none pre [] newtree kids)⟩
    · exact ⟨_, congrArg Prod.fst (setChange_end g none pre hn)⟩
  | cons s rest ih =>
    rcases node_cases node with rfl | ⟨newtree, kids, rfl⟩ | ⟨n, rfl, hn⟩
    · exact ⟨_, congrArg Prod.fst (setChange_remove_none g pre (s :: rest))⟩
    · exact ⟨_, congrArg Prod.fst (setChange_newTree g none pre (s :: rest) newtree kids)⟩
    · by_cases hs : s = []
      · rw [hs, setChange_empty g none pre hn rest]
        exact ih _ _
      · exact ⟨_, congrArg Prod.fst (setChange_through g none pre hn hs rest)⟩

theorem setChange_remove_through (g : UniTransactionGen) (pre : UniConfKey) (h : node.val.Through)
    (hs : s ≠ []) (rest : UniConfKey) :
    ∃ next, (setChange g none (pre ++ [s]) (node.kids.lookup (fold s)) rest).1 = some next ∧
      (setChange g none pre (some node) (s :: rest)).1 =
        some ⟨node.val, node.kids.insert s next⟩ := by
  obtain ⟨next, hnext⟩ :=
    setChange_remove_isSome g (pre ++ [s]) (node.kids.lookup (fold s)) rest
  refine ⟨next, hnext, ?_⟩
  rw [setChange_through g none pre h hs rest]
  simp only [hnext, vivify_remove, Option.elim_some]

/-! ## Sets at a plain key -/

theorem overlay_setChange (g : UniTransactionGen) (value : WvString) (hpre : pre.Plain)
    (node : Option UniConfChangeTree) (hrest : rest.Plain) (m : PathMap Segment Str) :
    overlay (setChange g value pre node rest).1 m =
      assign [] (overlay node m) rest.path value := by
  induction rest generalizing pre node m with
  | nil =>
    rcases node_cases node with rfl | ⟨newtree, kids, rfl⟩ | ⟨n, rfl, hn⟩
    · rw [setChange_none g value (hpre.append hrest), overlay_none]
      exact overlay_createNodes g.base value pre hrest m
    · rw [setChange_newTree, overlay_newTree, overlay_newTree]
      exact contents_setValue newtree pre hrest value
    · rw [setChange_end g value pre hn]
      exact overlay_changeNode g value pre hn m
  | cons s rest ih =>
    obtain ⟨hs, hrest'⟩ := plain_cons.mp hrest
    rcases node_cases node with rfl | ⟨newtree, kids, rfl⟩ | ⟨n, rfl, hn⟩
    · rw [setChange_none g value (hpre.append hrest), overlay_none]
      exact overlay_createNodes g.base value pre hrest m
    · rw [setChange_newTree, overlay_newTree, overlay_newTree]
      exact contents_setValue newtree pre hrest value
    · have hpre' : Plain (pre ++ [s]) := hpre.concat hs
      obtain ⟨next, hnext⟩ := setChange_isSome g value (hpre'.append hrest')
        (n.kids.lookup (fold s))
      have hself := ih hpre' (n.kids.lookup (fold s)) hrest' (m.below (fold s))
      have hthrough := vivify_through g.base value pre hn
      rw [setChange_through g value pre hn hs rest, path_cons_of_ne hs]
      simp only [hnext, Option.elim_some, vivify_kids]
      rw [hnext] at hself
      refine eq_assign_cons ?_ ?_ ?_
      · exact vivify_visible g.base value pre hn _ (m [])
      · rw [overlay_insert_self hthrough, hself, overlay_below hn]
      · intro t ht
        rw [overlay_insert_other hthrough _ ht, overlay_below hn]

/-! ## A set keeps the tree coherent -/

theorem coherent_insert {mode : Change} (hproper : kids.Proper (· ≠ [])) (hs : s ≠ [])
    (hkids : ∀ t, t ≠ fold s → Tree.Everywhere (fun p n => NodeOk n (m (t :: p))) (kids.lookup t))
    {child : UniConfChangeTree} (hchild : Coherent (some child) (m.below (fold s)))
    (hok : NodeOk ⟨mode, kids.insert s child⟩ (m [])) :
    Coherent (some ⟨mode, kids.insert s child⟩) m := by
  constructor
  · intro t ht
    cases ht
    exact hproper.insert hs (hchild.proper child rfl)
  · apply everywhere_some.mpr
    refine ⟨hok, ?_⟩
    exact everywhere_insert (P := fun p n => NodeOk n (m p)) hkids hchild.nodes

theorem quiet_insert (hkids : ∀ s, QuietTree (kids.lookup s)) (s : Segment)
    {child : UniConfChangeTree} (hchild : QuietTree (some child)) (t : Segment) :
    QuietTree ((kids.insert s child).lookup t) :=
  everywhere_insert (P := fun (_ : List Segment) (n : UniConfChangeTree) => n.val.Quiet)
    (fun s _ => hkids s) hchild t

theorem quiet_createNodes (base : UniTempGen) (pre rest : UniConfKey) :
    QuietTree (some (createNodes base none pre rest).1) := by
  induction rest generalizing pre with
  | nil =>
    apply everywhere_some.mpr
    exact ⟨.inr rfl, fun s => everywhere_none _⟩
  | cons s rest ih =>
    apply everywhere_some.mpr
    refine ⟨.inl rfl, ?_⟩
    apply quiet_insert _ s (ih _)
    exact fun _ => everywhere_none _

theorem coherent_createNodes (base : UniTempGen) (value : WvString) (hpre : pre.Plain)
    (hrest : rest.Plain) :
    Coherent (some (createNodes base value pre rest).1) (base.content.under pre.path) := by
  induction rest generalizing pre with
  | nil =>
    constructor
    · intro t ht
      cases ht
      cases value <;> exact trivial
    · apply everywhere_some.mpr
      cases value with
      | none => exact ⟨⟨rfl, fun _ h => by cases h⟩, fun _ => everywhere_none _⟩
      | some value => exact ⟨trivial, fun _ => everywhere_none _⟩
  | cons s rest ih =>
    obtain ⟨hs, hrest⟩ := plain_cons.mp hrest
    have hpre' : Plain (pre ++ [s]) := hpre.concat hs
    have hchild := ih hpre' hrest
    rw [under_concat base pre hs] at hchild
    apply coherent_insert (show Forest.Proper (· ≠ []) Forest.nil from trivial) hs
      (fun _ _ => everywhere_none _) hchild
    cases value with
    | none =>
      apply quiet_insert _ s (quiet_createNodes base _ rest)
      exact fun _ => everywhere_none _
    | some value =>
      show (base.get pre).not = WvString.not (base.content (pre.path ++ []))
      rw [List.append_nil, base.get_of_plain hpre]

theorem quiet_remove (g : UniTransactionGen) (pre : UniConfKey) {node : Option UniConfChangeTree}
    (hnode : QuietTree node) (rest : UniConfKey) :
    QuietTree (setChange g none pre node rest).1 := by
  have hnone : ∀ (pre rest : UniConfKey), QuietTree (setChange g none pre none rest).1 := by
    intro pre rest
    rw [setChange_remove_none]
    exact quiet_createNodes g.base pre rest
  have htree : ∀ {newtree : Option UniConfValueTree} {kids : Forest Segment Change}
      (pre rest : UniConfKey), QuietTree (some ⟨.newTree newtree, kids⟩) →
      QuietTree (setChange g none pre (some ⟨.newTree newtree, kids⟩) rest).1 := by
    intro newtree kids pre rest hnode
    obtain ⟨hroot, hkids⟩ := everywhere_some.mp hnode
    obtain rfl : newtree = none := by simpa [Change.Quiet] using hroot
    rw [setChange_newTree]
    exact everywhere_some.mpr ⟨.inr rfl, hkids⟩
  induction rest generalizing pre node with
  | nil =>
    rcases node_cases node with rfl | ⟨newtree, kids, rfl⟩ | ⟨n, rfl, hn⟩
    · exact hnone pre []
    · exact htree pre [] hnode
    · rw [setChange_end g none pre hn]
      exact everywhere_some.mpr ⟨.inr rfl, fun _ => everywhere_none _⟩
  | cons s rest ih =>
    rcases node_cases node with rfl | ⟨newtree, kids, rfl⟩ | ⟨n, rfl, hn⟩
    · exact hnone pre (s :: rest)
    · exact htree pre (s :: rest) hnode
    · by_cases hs : s = []
      · rw [hs, setChange_empty g none pre hn rest, vivify_remove]
        exact ih (pre ++ [[]]) hnode
      · obtain ⟨hroot, hkids⟩ := everywhere_some.mp hnode
        obtain ⟨next, hnext, hstep⟩ := setChange_remove_through g pre hn hs rest
        have hchild := ih (pre ++ [s]) (hkids (fold s))
        rw [hnext] at hchild
        rw [hstep]
        exact everywhere_some.mpr ⟨hroot, quiet_insert hkids s hchild⟩

theorem nodeOk_vivify (base : UniTempGen) (value : WvString) (hnode : NodeOk node (base.get pre))
    {kids' : Forest Segment Change}
    (hkids : value = none → node.val = .blank → ∀ s, QuietTree (kids'.lookup s))
    (hn : node.val.Through) :
    NodeOk ⟨(vivify base value pre node).1.val, kids'⟩ (base.get pre) := by
  obtain ⟨mode, kids⟩ := node
  cases mode with
  | newTree newtree => exact absurd hn id
  | newValue newvalue => simp [vivify, NodeOk]
  | newNode flag =>
    have hflag : flag = (base.get pre).not := hnode
    simpa [vivify, NodeOk] using hflag
  | blank =>
    cases value with
    | none => simpa [vivify, NodeOk] using hkids rfl rfl
    | some value => simp [vivify, NodeOk, newNode]

theorem coherent_setChange_newTree (g : UniTransactionGen) (value : WvString) (pre : UniConfKey)
    {newtree : Option UniConfValueTree} (hnode : Coherent (some ⟨.newTree newtree, kids⟩) m)
    (hrest : rest.Plain) :
    Coherent (setChange g value pre (some ⟨.newTree newtree, kids⟩) rest).1 m := by
  obtain ⟨hroot, hkids⟩ := everywhere_some.mp hnode.nodes
  rw [setChange_newTree]
  constructor
  · intro t ht
    cases ht
    exact hnode.proper ⟨.newTree newtree, kids⟩ rfl
  · apply everywhere_some.mpr
    exact ⟨⟨hroot.1, proper_setValue hroot.2 pre hrest value⟩, hkids⟩

theorem coherent_setChange_end (g : UniTransactionGen) (value : WvString) (pre : UniConfKey)
    {n : UniConfChangeTree} (hn : n.val.Through) (hnode : Coherent (some n) m) :
    Coherent (setChange g value pre (some n) []).1 m := by
  obtain ⟨-, hkids⟩ := everywhere_some.mp hnode.nodes
  rw [setChange_end g value pre hn]
  constructor
  · intro t ht
    cases ht
    cases value with
    | none => exact trivial
    | some value => exact hnode.proper n rfl
  · apply everywhere_some.mpr
    cases value with
    | none => exact ⟨⟨rfl, fun _ h => by cases h⟩, fun _ => everywhere_none _⟩
    | some value => exact ⟨trivial, hkids⟩

theorem coherent_setChange (g : UniTransactionGen) (value : WvString) (hpre : pre.Plain)
    {node : Option UniConfChangeTree} (hnode : Coherent node (g.base.content.under pre.path))
    (hrest : rest.Plain) :
    Coherent (setChange g value pre node rest).1 (g.base.content.under pre.path) := by
  induction rest generalizing pre node with
  | nil =>
    rcases node_cases node with rfl | ⟨newtree, kids, rfl⟩ | ⟨n, rfl, hn⟩
    · rw [setChange_none g value (hpre.append hrest)]
      exact coherent_createNodes g.base value hpre hrest
    · exact coherent_setChange_newTree g value pre hnode hrest
    · exact coherent_setChange_end g value pre hn hnode
  | cons s rest ih =>
    obtain ⟨hs, hrest'⟩ := plain_cons.mp hrest
    rcases node_cases node with rfl | ⟨newtree, kids, rfl⟩ | ⟨n, rfl, hn⟩
    · rw [setChange_none g value (hpre.append hrest)]
      exact coherent_createNodes g.base value hpre hrest
    · exact coherent_setChange_newTree g value pre hnode hrest
    · have hpre' : Plain (pre ++ [s]) := hpre.concat hs
      have hpath := under_concat g.base pre hs
      obtain ⟨hroot, hkids⟩ := everywhere_some.mp hnode.nodes
      obtain ⟨next, hnext⟩ := setChange_isSome g value (hpre'.append hrest')
        (n.kids.lookup (fold s))
      have hchild := ih hpre' (hpath ▸ hnode.child (fold s)) hrest'
      rw [hpath, hnext] at hchild
      rw [setChange_through g value pre hn hs rest]
      simp only [hnext, Option.elim_some, vivify_kids]
      apply coherent_insert (hnode.proper n rfl) hs (fun t _ => hkids t) hchild
      rw [under_nil g.base hpre] at hroot ⊢
      apply nodeOk_vivify g.base value hroot _ hn
      intro hvalue hblank
      have hquiet : ∀ s, QuietTree (n.kids.lookup s) := by
        simpa [NodeOk, hblank] using hroot
      have hnextQuiet := quiet_remove g (pre ++ [s]) (hquiet (fold s)) rest
      rw [← hvalue, hnext] at hnextQuiet
      exact quiet_insert hquiet s hnextQuiet

end UniTransactionGen

end WvStreams
