import WvStreams.UniConf.TempGen

/-!
# `UniTransactionGen`: the pending changes

A transaction keeps a tree of changes over its base generator. What the node of a key says
decides how the base's value of the key shows through (`visible`), and no other value of the
base matters for the key; the transaction seen from outside is `view`. `get` and `iterator`
walk the tree and the base; `get_eq` and `iterator_eq` say that they read `view`.
-/

namespace WvStreams

open Lib UniConfKey UniConfTree List Forest.Proper Lib.Tree

/-- `changeMode`, each mode with the field that is valid in it. -/
inductive Change where
  | newValue (newvalue : Str)
  | newTree (newtree : Option UniConfValueTree)
  | newNode (wasNullOrEmpty : Bool)
  | blank
  deriving DecidableEq

namespace Change

/-- The mode is not `NEWTREE`. -/
def Through : Change → Prop
  | .newTree _ => False
  | _ => True

/-- Nothing but a deletion: `BLANK`, or `NEWTREE` with `newtree == NULL`. -/
def Quiet (mode : Change) : Prop := mode = .blank ∨ mode = .newTree none

end Change

abbrev UniConfChangeTree := UniConfTree Change

structure UniTransactionGen where
  root : Option UniConfChangeTree
  base : UniTempGen

namespace UniTransactionGen

/-- A node that is not replaced has one of the other modes. -/
@[elab_as_elim]
theorem through_cases {P : UniConfChangeTree → Prop} {node : UniConfChangeTree}
    (h : node.val.Through) (newValue : ∀ newvalue kids, P ⟨.newValue newvalue, kids⟩)
    (newNode : ∀ flag kids, P ⟨.newNode flag, kids⟩) (blank : ∀ kids, P ⟨.blank, kids⟩) :
    P node := by
  obtain ⟨mode, kids⟩ := node
  cases mode with
  | newTree newtree => exact absurd h id
  | newValue newvalue => exact newValue newvalue kids
  | newNode flag => exact newNode flag kids
  | blank => exact blank kids

def create (base : UniTempGen) : UniTransactionGen := ⟨none, base⟩

/-- The loop of `get`: `pre` are the segments that led to `node`, `rest` those to come. -/
def getLoop (base : UniTempGen) (pre : UniConfKey) (node : Option UniConfChangeTree)
    (rest : UniConfKey) : WvString :=
  match node with
  | none => base.get (pre ++ rest)
  | some node =>
    match node.val with
    | .newTree newtree =>
      newtree.bind fun newtree => (UniConfTree.find newtree rest).map val
    | mode =>
      match rest with
      | [] =>
        match mode with
        | .newValue newvalue => some newvalue
        | .newNode _ => if (base.get pre).not then some [] else base.get pre
        | _ => base.get pre
      | s :: rest => getLoop base (pre ++ [s]) (UniConfTree.findchild node s) rest

def get (g : UniTransactionGen) (key : UniConfKey) : WvString := getLoop g.base [] g.root key

/-- What `GenStyleChangeTreeIter` says of a changed child; it skips a child that is deleted
or `BLANK`. -/
def changedChild (base : UniTempGen) (section_ : UniConfKey) (name : Segment) :
    Change → Option (Segment × Str)
  | .newValue newvalue => some (name, newvalue)
  | .newTree (some newtree) => some (name, newtree.val)
  | .newNode _ => some (name, (base.get (UniConfKey.concat section_ [name])).getD [])
  | _ => none

/-- `GenStyleChangeTreeIter`: the changed children, then those of the base that have no node
or a `BLANK` one. -/
def changeIter (base : UniTempGen) (section_ : UniConfKey) (root : UniConfChangeTree) :
    List (Segment × Str) :=
  (root.kids.toList.filterMap fun c => changedChild base section_ c.1 c.2.val) ++
    (base.iterator section_).filter fun c =>
      match UniConfTree.findchild root c.1 with
      | none => true
      | some node => node.val = .blank

/-- The loop of `iterator`. A null or empty iterator lists nothing. -/
def iteratorLoop (base : UniTempGen) (pre : UniConfKey) (node : Option UniConfChangeTree)
    (rest : UniConfKey) : List (Segment × Str) :=
  match node with
  | none => base.iterator (pre ++ rest)
  | some node =>
    match node.val with
    | .newTree newtree =>
      match newtree.bind fun newtree => UniConfTree.find newtree rest with
      | none => []
      | some subnode => subnode.kids.toList.map fun c => (c.1, c.2.val)
    | _ =>
      match rest with
      | [] => changeIter base pre node
      | s :: rest => iteratorLoop base (pre ++ [s]) (UniConfTree.findchild node s) rest

def iterator (g : UniTransactionGen) (key : UniConfKey) : List (Segment × Str) :=
  iteratorLoop g.base [] g.root key

/-- The value seen at a path when the base has `b` there. -/
def visible (node : Option UniConfChangeTree) (p : List Segment) (b : WvString) : WvString :=
  match node with
  | none => b
  | some node =>
    match node.val with
    | .newTree newtree => contents newtree p
    | mode =>
      match p with
      | [] =>
        match mode with
        | .newValue newvalue => some newvalue
        | .newNode _ => some (b.getD [])
        | _ => b
      | s :: p => visible (node.kids.lookup s) p b

def overlay (node : Option UniConfChangeTree) (m : PathMap Segment Str) : PathMap Segment Str :=
  fun p => visible node p (m p)

def view (g : UniTransactionGen) : PathMap Segment Str := overlay g.root g.base.content

@[simp] theorem visible_none (p : List Segment) (b : WvString) : visible none p b = b := by
  cases p <;> rfl

@[simp] theorem overlay_none (m : PathMap Segment Str) : overlay none m = m := by
  funext p
  exact visible_none p (m p)

theorem visible_newTree (newtree : Option UniConfValueTree) (kids : Forest Segment Change)
    (p : List Segment) (b : WvString) :
    visible (some ⟨.newTree newtree, kids⟩) p b = contents newtree p := by
  cases p <;> rfl

theorem overlay_newTree (newtree : Option UniConfValueTree) (kids : Forest Segment Change)
    (m : PathMap Segment Str) :
    overlay (some ⟨.newTree newtree, kids⟩) m = contents newtree := by
  funext p
  exact visible_newTree newtree kids p (m p)

variable {node : UniConfChangeTree} {pre : UniConfKey}

theorem visible_cons (h : node.val.Through) (s : Segment) (p : List Segment) (b : WvString) :
    visible (some node) (s :: p) b = visible (node.kids.lookup s) p b := by
  exact through_cases h (fun _ _ => rfl) (fun _ _ => rfl) fun _ => rfl

theorem overlay_below (h : node.val.Through) (m : PathMap Segment Str) (s : Segment) :
    (overlay (some node) m).below s = overlay (node.kids.lookup s) (m.below s) := by
  funext p
  exact visible_cons h s p (m (s :: p))

theorem visible_idem (node : Option UniConfChangeTree) (p : List Segment) (b : WvString) :
    visible node p (visible node p b) = visible node p b := by
  induction p generalizing node with
  | nil =>
    cases node with
    | none => rfl
    | some node =>
      obtain ⟨mode, kids⟩ := node
      cases mode <;> rfl
  | cons s p ih =>
    cases node with
    | none => rfl
    | some node =>
      obtain ⟨mode, kids⟩ := node
      cases mode with
      | newTree newtree => rfl
      | newValue newvalue | newNode flag | blank => exact ih _

/-- Nothing but deletions in the whole tree. -/
def QuietTree (node : Option UniConfChangeTree) : Prop :=
  Tree.Everywhere (fun _ n => n.val.Quiet) node

/-- What the comments on `changeMode` promise of a node over a base that has `b` at its key. -/
def NodeOk (node : UniConfChangeTree) (b : WvString) : Prop :=
  match node.val with
  | .newValue _ => True
  | .newTree newtree => node.kids = .nil ∧ ∀ t ∈ newtree, UniConfTree.Proper t
  | .newNode wasNullOrEmpty => wasNullOrEmpty = b.not
  | .blank => ∀ s, QuietTree (node.kids.lookup s)

/-- The changes fit a base with the content `m`. -/
structure Coherent (root : Option UniConfChangeTree) (m : PathMap Segment Str) : Prop where
  proper : ∀ t ∈ root, UniConfTree.Proper t
  nodes : Tree.Everywhere (fun p n => NodeOk n (m p)) root

theorem coherent_none (m : PathMap Segment Str) : Coherent none m :=
  ⟨nofun, everywhere_none _⟩

theorem Coherent.child {m : PathMap Segment Str} (h : Coherent (some node) m) (s : Segment) :
    Coherent (node.kids.lookup s) (m.below s) :=
  ⟨fun _ ht => (h.proper node rfl).of_lookup ht, (everywhere_some.mp h.nodes).2 s⟩

theorem Coherent.rest {m : Segment → PathMap Segment Str} {name : Segment} {mode : Change}
    {sub rest : Forest Segment Change} (hnew : rest.lookup (fold name) = none)
    (h : ∀ s, Coherent ((Forest.cons name mode sub rest).lookup s) (m s)) (s : Segment) :
    Coherent (rest.lookup s) (m s) := by
  by_cases hs : s = fold name
  · rw [hs, hnew]
    exact coherent_none _
  · rw [← Forest.lookup_cons_of_ne hs mode sub rest]
    exact h s

theorem under_nil (base : UniTempGen) (hpre : pre.Plain) :
    base.content.under pre.path [] = base.get pre := by
  rw [base.get_of_plain hpre, PathMap.under_apply, append_nil]

theorem under_concat (base : UniTempGen) (pre : UniConfKey) {s : Segment} (hs : s ≠ []) :
    base.content.under (path (pre ++ [s])) =
      (base.content.under pre.path).below (fold s) := by
  rw [path_concat pre hs rfl, PathMap.under_append]
  rfl

theorem getLoop_eq (base : UniTempGen) (hpre : pre.Plain) (node : Option UniConfChangeTree)
    {rest : UniConfKey} (hrest : rest.Plain) :
    getLoop base pre node rest =
      visible node rest.path (base.content (pre.path ++ rest.path)) := by
  induction rest generalizing pre node with
  | nil =>
    have hbase := base.get_of_plain hpre
    cases node with
    | none => simp [getLoop, hbase]
    | some node =>
      obtain ⟨mode, kids⟩ := node
      cases mode with
      | newTree newtree =>
        cases newtree <;> rfl
      | newValue newvalue => rfl
      | newNode flag =>
        simp only [getLoop, visible, path_nil, append_nil, hbase]
        cases hb : base.content pre.path with
        | none => rfl
        | some b => by_cases h : b = [] <;> simp [h]
      | blank => simp [getLoop, visible, hbase]
  | cons s rest ih =>
    obtain ⟨hs, hrest⟩ := plain_cons.mp hrest
    have hpre' : Plain (pre ++ [s]) := hpre.concat hs
    have hpath : path (pre ++ [s]) = pre.path ++ [fold s] :=
      path_concat pre hs rfl
    have hnext : ∀ node : UniConfChangeTree, node.val.Through →
        getLoop base (pre ++ [s]) (findchild node s) rest =
          visible (some node) (path (s :: rest))
            (base.content (pre.path ++ path (s :: rest))) := by
      intro node hthrough
      rw [ih hpre' _ hrest, path_cons_of_ne hs, visible_cons hthrough,
        findchild_of_ne hs, hpath, append_assoc, singleton_append]
    cases node with
    | none =>
      have hplain := hpre.append (plain_cons.mpr ⟨hs, hrest⟩)
      simp only [getLoop, visible_none]
      rw [base.get_of_plain hplain, path_append]
    | some node =>
      obtain ⟨mode, kids⟩ := node
      cases mode with
      | newTree newtree =>
        rw [visible_newTree]
        cases newtree with
        | none => rfl
        | some newtree =>
          simp only [getLoop, Option.bind_some, find_eq]
          rfl
      | newValue newvalue | newNode flag | blank => exact hnext _ trivial

theorem get_eq (g : UniTransactionGen) {key : UniConfKey} (h : key.Plain) :
    g.get key = g.view key.path := by
  have hloop := getLoop_eq g.base plain_nil g.root h
  exact hloop

theorem changedChild_eq (base : UniTempGen) {section_ : UniConfKey} (hsection : section_.Plain)
    {name : Segment} (hname : name ≠ []) (node : UniConfChangeTree) :
    changedChild base section_ name node.val =
      if node.val = .blank then none
      else (visible (some node) [] (base.content (section_.path ++ [fold name]))).map
        fun v => (name, v) := by
  have hkey : Plain (section_ ++ [name]) := hsection.concat hname
  obtain ⟨mode, kids⟩ := node
  cases mode with
  | newValue newvalue => rfl
  | newTree newtree => cases newtree <;> rfl
  | newNode flag =>
    simp only [changedChild, concat_name hsection hname]
    rw [base.get_of_plain hkey, path_concat section_ hname rfl]
    rfl
  | blank => rfl

theorem lists_changeIter (base : UniTempGen) {section_ : UniConfKey} (hsection : section_.Plain)
    (hnode : Proper node) :
    Lists (changeIter base section_ node) fun s =>
      visible (node.kids.lookup s) [] (base.content (section_.path ++ [s])) := by
  have hbase := base.lists_iterator section_
  have hchanged : ∀ c ∈ node.kids.toList, ∀ d, changedChild base section_ c.1 c.2.val = some d →
      c.2.val ≠ .blank ∧ d.1 = c.1 ∧
        visible (some c.2) [] (base.content (section_.path ++ [fold c.1])) = some d.2 := by
    intro c hc d hd
    have hname := (ok_of_mem hnode hc).1
    rw [changedChild_eq base hsection hname] at hd
    split at hd
    · cases hd
    · rename_i hmode
      obtain ⟨v, hv, rfl⟩ := Option.map_eq_some_iff.mp hd
      exact ⟨hmode, rfl, hv⟩
  have hkept : ∀ c ∈ base.iterator section_, (match findchild node c.1 with
        | none => true
        | some node => decide (node.val = .blank)) = true ↔
      ∀ n, node.kids.lookup (fold c.1) = some n → n.val = .blank := by
    intro c hc
    rw [findchild_of_ne (UniTempGen.ne_nil_of_mem_iterator hc)]
    cases node.kids.lookup (fold c.1) with
    | none | some n => simp
  constructor
  · apply pairwise_append.mpr
    refine ⟨?_, hbase.distinct.filter _, ?_⟩
    · apply pairwise_filterMap.mpr
      have hnames := pairwise_map.mp (nodup_names hnode)
      apply hnames.imp_of_mem
      intro a b ha hb hne d hd e he
      rw [(hchanged a ha d hd).2.1, (hchanged b hb e he).2.1]
      exact hne
    · intro d hd e he hsame
      obtain ⟨c, hc, hcd⟩ := mem_filterMap.mp hd
      obtain ⟨hmode, hname, -⟩ := hchanged c hc d hcd
      obtain ⟨he, hkeep⟩ := mem_filter.mp he
      have hlookup := lookup_of_mem hnode hc
      rw [← hname, hsame] at hlookup
      exact hmode ((hkept e he).mp hkeep c.2 hlookup)
  · intro s v
    constructor
    · rintro ⟨name, rfl, hm⟩
      rcases mem_append.mp hm with hm | hm
      · obtain ⟨c, hc, hcd⟩ := mem_filterMap.mp hm
        obtain ⟨-, hname, hv⟩ := hchanged c hc _ hcd
        have hlookup := lookup_of_mem hnode hc
        have hname' : name = c.1 := hname
        rw [hname', hlookup]
        exact hv
      · obtain ⟨hm, hkeep⟩ := mem_filter.mp hm
        have hv := (hbase.mem (fold name) v).mp ⟨name, rfl, hm⟩
        have hquiet := (hkept _ hm).mp hkeep
        cases hl : node.kids.lookup (fold name) with
        | none => exact hv
        | some n =>
          obtain ⟨mode, kids⟩ := n
          obtain rfl : mode = .blank := hquiet _ hl
          exact hv
    · intro hv
      have hbaseChild : (∀ n, node.kids.lookup s = some n → n.val = .blank) →
          base.content (section_.path ++ [s]) = some v →
          ∃ name, fold name = s ∧ (name, v) ∈ changeIter base section_ node := by
        intro hquiet hb
        obtain ⟨name, rfl, hm⟩ := (hbase.mem s v).mpr hb
        exact ⟨name, rfl, mem_append_right _
          (mem_filter.mpr ⟨hm, (hkept _ hm).mpr hquiet⟩)⟩
      cases hl : node.kids.lookup s with
      | none =>
        rw [hl] at hv
        exact hbaseChild (by simp [hl]) hv
      | some n =>
        rw [hl] at hv
        by_cases hmode : n.val = .blank
        · obtain ⟨mode, kids⟩ := n
          obtain rfl : mode = .blank := hmode
          exact hbaseChild (by simp [hl]) hv
        · obtain ⟨name, rfl, hm⟩ := Forest.mem_of_lookup hl
          have hname := (ok_of_mem hnode hm).1
          have hd : changedChild base section_ name n.val = some (name, v) := by
            rw [changedChild_eq base hsection hname, if_neg hmode, hv]
            rfl
          exact ⟨name, rfl, mem_append_left _ (mem_filterMap.mpr ⟨_, hm, hd⟩)⟩

theorem lists_iteratorLoop (base : UniTempGen) (hpre : pre.Plain)
    {node : Option UniConfChangeTree} {m : PathMap Segment Str} (hnode : Coherent node m)
    {rest : UniConfKey} (hrest : rest.Plain) :
    Lists (iteratorLoop base pre node rest) fun s =>
      visible node (rest.path ++ [s]) (base.content (pre.path ++ rest.path ++ [s])) := by
  have htree : ∀ pre (newtree : Option UniConfValueTree) (kids : Forest Segment Change) rest,
      (∀ t ∈ newtree, Proper t) →
      Lists (iteratorLoop base pre (some ⟨.newTree newtree, kids⟩) rest) fun s =>
        contents newtree (rest.path ++ [s]) := by
    intro pre newtree kids rest hproper
    have hloop : iteratorLoop base pre (some ⟨.newTree newtree, kids⟩) rest =
        (⟨newtree, hproper⟩ : UniTempGen).iterator rest := by
      cases newtree with
      | none | some newtree => cases rest <;> rfl
    rw [hloop]
    exact UniTempGen.lists_iterator _ rest
  induction rest generalizing pre node m with
  | nil =>
    cases node with
    | none =>
      simp only [visible_none, iteratorLoop, path_nil, append_nil]
      exact base.lists_iterator pre
    | some node =>
      have hproper := hnode.proper node rfl
      have hok := (everywhere_some.mp hnode.nodes).1
      obtain ⟨mode, kids⟩ := node
      simp only [path_nil, append_nil, nil_append]
      cases mode with
      | newTree newtree =>
        simp only [visible_newTree]
        exact htree pre newtree kids [] hok.2
      | newValue newvalue | newNode flag | blank => exact lists_changeIter base hpre hproper
  | cons s rest ih =>
    obtain ⟨hs, hrest⟩ := plain_cons.mp hrest
    have hpre' : Plain (pre ++ [s]) := hpre.concat hs
    cases node with
    | none =>
      simp only [visible_none, iteratorLoop]
      rw [← path_append]
      exact base.lists_iterator _
    | some node =>
      have hnext : node.val.Through → Lists (iteratorLoop base (pre ++ [s]) (findchild node s) rest)
            fun s' => visible (some node) (path (s :: rest) ++ [s'])
              (base.content (pre.path ++ path (s :: rest) ++ [s'])) := by
        intro hthrough
        have h := ih hpre' (hnode.child (fold s)) hrest
        rw [path_concat pre hs rfl] at h
        rw [findchild_of_ne hs, path_cons_of_ne hs]
        simpa only [cons_append, visible_cons hthrough, append_assoc, nil_append] using h
      have hok := (everywhere_some.mp hnode.nodes).1
      obtain ⟨mode, kids⟩ := node
      cases mode with
      | newTree newtree =>
        simp only [visible_newTree]
        exact htree pre newtree kids _ hok.2
      | newValue newvalue | newNode flag | blank => exact hnext trivial

theorem lists_iterator (g : UniTransactionGen) (h : Coherent g.root g.base.content)
    {key : UniConfKey} (hkey : key.Plain) :
    Lists (g.iterator key) fun s => g.view (key.path ++ [s]) :=
  lists_iteratorLoop g.base plain_nil h hkey

end UniTransactionGen

end WvStreams
