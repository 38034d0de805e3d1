import WvStreams.UniConf.Transaction.Commit

/-!
# What a `set` of the transaction announces

A listener who hears the announcements of a `set` ends with the new view, except in one
case: the value of a `NEWNODE` whose key has a non-empty value in the base is changed to
another non-empty value. Then `set_change` says nothing (`Silent`, `set_told_iff`).

`Removes` is what a deletion announces and `Reports` what a value does, both relative to a
node of the change tree.
-/

namespace WvStreams

open Lib UniConfKey PathMap UniConfTree UniTempGen List Delta

namespace UniTransactionGen

/-! ## Deletions -/

/-- All announcements are removals at or below `k`, and one is of `k` itself. -/
structure Removes (k : List Segment) (ds : List Delta) : Prop where
  all : ∀ d ∈ ds, d.value = none ∧ k <+: d.key.path
  self : ∃ d ∈ ds, d.note = (k, none)

theorem removes_deletionSim (iter : UniConfKey → List (Segment × Str)) (levels : Nat)
    (key : UniConfKey) : Removes key.path (deletionSim iter levels key) := by
  induction levels generalizing key with
  | zero =>
    constructor
    · intro d hd
      obtain rfl : d = ⟨key, none⟩ := by simpa [deletionSim] using hd
      exact ⟨rfl, prefix_refl _⟩
    · exact ⟨⟨key, none⟩, by simp [deletionSim], rfl⟩
  | succ levels ih =>
    constructor
    · intro d hd
      simp only [deletionSim, mem_append, mem_flatMap, mem_singleton] at hd
      rcases hd with ⟨c, -, hd⟩ | rfl
      · obtain ⟨hv, hpre⟩ := (ih _).all d hd
        rw [path_concatKey] at hpre
        exact ⟨hv, (prefix_append _ _).trans hpre⟩
      · exact ⟨rfl, prefix_refl _⟩
    · exact ⟨⟨key, none⟩, by simp [deletionSim], rfl⟩

variable {rest pre : UniConfKey} {ds : List Delta} {k t : List Segment}

theorem Removes.mirror (h : Removes k ds) (m : PathMap Segment Str) :
    mirror m (ds.map note) = m.prune k := by
  apply mirror_removals
  · intro n hn
    obtain ⟨d, hd, rfl⟩ := List.mem_map.mp hn
    exact h.all d hd
  · obtain ⟨d, hd, he⟩ := h.self
    exact List.mem_map.mpr ⟨d, hd, he⟩

theorem removes_visitDeleted (subnode : UniConfValueTree) (key : UniConfKey) :
    Removes key.path (visitDeleted subnode key) := by
  constructor
  · intro d hd
    obtain ⟨k, -, rfl⟩ := List.mem_map.mp hd
    refine ⟨rfl, ?_⟩
    rw [path_concatKey]
    exact prefix_append _ _
  · refine ⟨⟨key.concat [], none⟩, ?_, ?_⟩
    · exact List.mem_map.mpr ⟨[], by simp [Tree.postorder], rfl⟩
    · rw [note, path_concatKey]
      simp

theorem removes_createNodes (base : UniTempGen) (hpre : pre.Plain) (hrest : rest.Plain) :
    Removes (pre.path ++ path rest) (createNodes base none pre rest).2 ∨
      ((createNodes base none pre rest).2 = [] ∧
        ∀ q, base.content (pre.path ++ (path rest ++ q)) = none) := by
  induction rest generalizing pre with
  | nil =>
    simp only [createNodes, path_nil, append_nil, nil_append]
    split
    · exact .inl (removes_deletionSim _ _ pre)
    · rename_i hexists
      refine .inr ⟨rfl, ?_⟩
      intro q
      apply base.content_closed
      rw [exists_, base.get_of_plain hpre] at hexists
      simpa using hexists
  | cons s rest ih =>
    obtain ⟨hs, hrest⟩ := plain_cons.mp hrest
    have hnext := ih (hpre.concat hs) hrest
    rw [path_concat pre hs rfl] at hnext
    simp only [append_assoc, singleton_append] at hnext
    rw [path_cons_of_ne hs]
    simpa [createNodes] using hnext

theorem removes_newTree (g : UniTransactionGen) {newtree : Option UniConfValueTree}
    (kids : Forest Segment Change) (pre rest : UniConfKey) (m : PathMap Segment Str) :
    Removes (pre.path ++ path rest) (setChange g none pre (some ⟨.newTree newtree, kids⟩) rest).2 ∨
      ((setChange g none pre (some ⟨.newTree newtree, kids⟩) rest).2 = [] ∧
        ∀ q, overlay (some ⟨.newTree newtree, kids⟩) m (path rest ++ q) = none) := by
  rw [setChange_newTree, overlay_newTree]
  cases newtree with
  | none => exact .inr ⟨rfl, fun _ => rfl⟩
  | some newtree =>
    simp only [setValue, find_eq]
    split
    · rename_i hf
      refine .inr ⟨rfl, ?_⟩
      intro q
      exact newtree.content_closed _ q ((newtree.content_eq_none_iff _).mpr hf)
    · rename_i subnode hf
      have h := removes_visitDeleted subnode (pre ++ rest)
      rw [path_append] at h
      exact .inl h

theorem removes_end (g : UniTransactionGen) (hpre : pre.Plain) {n : UniConfChangeTree}
    (hn : n.val.Through) (hnode : Coherent (some n) (g.base.content.under pre.path)) :
    Removes pre.path (setChange g none pre (some n) []).2 ∨
      ((setChange g none pre (some n) []).2 = [] ∧
        ∀ q, overlay (some n) (g.base.content.under pre.path) q = none) := by
  rw [setChange_end g none pre hn]
  simp only [changeNode]
  split
  · exact .inl (removes_deletionSim _ _ pre)
  · rename_i hquiet
    obtain ⟨hblank, hexists⟩ : n.val = .blank ∧ g.base.content pre.path = none := by
      rw [exists_, g.base.get_of_plain hpre] at hquiet
      simpa using hquiet
    refine .inr ⟨rfl, ?_⟩
    obtain ⟨hroot, hkids⟩ := Tree.everywhere_some.mp hnode.nodes
    have hbelow : ∀ s, QuietTree (n.kids.lookup s) := by
      simpa [NodeOk, hblank] using hroot
    have htree : QuietTree (some n) := Tree.everywhere_some.mpr ⟨.inl hblank, hbelow⟩
    intro q
    rw [overlay, under_apply, g.base.content_closed _ q hexists]
    exact htree.visible_none q

theorem removes_setChange (g : UniTransactionGen) (hpre : pre.Plain)
    {node : Option UniConfChangeTree} (hnode : Coherent node (g.base.content.under pre.path))
    (hrest : rest.Plain) :
    Removes (pre.path ++ path rest) (setChange g none pre node rest).2 ∨
      ((setChange g none pre node rest).2 = [] ∧
        ∀ q, overlay node (g.base.content.under pre.path) (path rest ++ q) = none) := by
  induction rest generalizing pre node with
  | nil =>
    rcases node_cases node with rfl | ⟨newtree, kids, rfl⟩ | ⟨n, rfl, hn⟩
    · rw [setChange_none g none (hpre.append hrest), overlay_none]
      exact removes_createNodes g.base hpre hrest
    · exact removes_newTree g kids pre [] _
    · rw [path_nil, append_nil]
      exact removes_end g hpre hn hnode
  | cons s rest ih =>
    obtain ⟨hs, hrest'⟩ := plain_cons.mp hrest
    rcases node_cases node with rfl | ⟨newtree, kids, rfl⟩ | ⟨n, rfl, hn⟩
    · rw [setChange_none g none (hpre.append hrest), overlay_none]
      exact removes_createNodes g.base hpre hrest
    · exact removes_newTree g kids pre (s :: rest) _
    · have hunder := under_concat g.base pre hs
      have hnext := ih (hpre.concat hs) (hunder ▸ hnode.child (fold s)) hrest'
      rw [hunder, ← overlay_below hn, path_concat pre hs rfl] at hnext
      have hvivify : (vivify g.base none pre n).2 = [] := by simp [vivify]
      rw [setChange_through g none pre hn hs, path_cons_of_ne hs, hvivify]
      simpa only [nil_append, append_assoc, singleton_append, cons_append, below_apply] using hnext

/-! ## Values -/

/-- The announcements, at `k` and below, of a change from `m` to `m'`: they are right, and
complete unless `missed` holds, when the one for the path `t` is missing. -/
structure Reports (k t : List Segment) (missed : Prop) (m m' : PathMap Segment Str)
    (ds : List Delta) : Prop where
  sound : ∀ d ∈ ds, d.value ≠ none ∧ ∃ q, d.key.path = k ++ q ∧ m' q = d.value
  complete : ∀ q, m q ≠ m' q → missed ∧ q = t ∨ ∃ d ∈ ds, d.key.path = k ++ q
  differs : missed → m t ≠ m' t
  absent : missed → ∀ d ∈ ds, d.key.path ≠ k ++ t

theorem Reports.congr {missed missed' : Prop} {m m' : PathMap Segment Str}
    (h : Reports k t missed m m' ds) (he : missed ↔ missed') : Reports k t missed' m m' ds :=
  propext he ▸ h

theorem Reports.cons {k t : List Segment} {s : Segment} {missed : Prop}
    {m m' : PathMap Segment Str} {ds ds' : List Delta}
    (hself : ∀ d ∈ ds, d.value ≠ none ∧ d.key.path = k ∧ m' [] = d.value)
    (hnew : m [] ≠ m' [] → ∃ d ∈ ds, d.key.path = k)
    (hchild : Reports (k ++ [s]) t missed (m.below s) (m'.below s) ds')
    (hother : ∀ u, u ≠ s → m'.below u = m.below u) :
    Reports k (s :: t) missed m m' (ds ++ ds') := by
  constructor
  · intro d hd
    rcases mem_append.mp hd with hd | hd
    · obtain ⟨hv, hk, hm⟩ := hself d hd
      exact ⟨hv, [], by rw [hk, append_nil], hm⟩
    · obtain ⟨hv, q, hq, hm⟩ := hchild.sound d hd
      exact ⟨hv, s :: q, by rw [hq, append_assoc, singleton_append], hm⟩
  · intro q hq
    cases q with
    | nil =>
      obtain ⟨d, hd, hk⟩ := hnew hq
      exact .inr ⟨d, mem_append_left _ hd, by rw [hk, append_nil]⟩
    | cons u q =>
      by_cases hu : u = s
      · subst hu
        rcases hchild.complete q hq with ⟨hmissed, rfl⟩ | ⟨d, hd, hk⟩
        · exact .inl ⟨hmissed, rfl⟩
        · refine .inr ⟨d, mem_append_right _ hd, ?_⟩
          rw [hk, append_assoc, singleton_append]
      · exact absurd (congrFun (hother u hu) q).symm hq
  · exact hchild.differs
  · intro hmissed d hd
    rcases mem_append.mp hd with hd | hd
    · rw [(hself d hd).2.1]
      simp
    · have h := hchild.absent hmissed d hd
      rwa [append_assoc, singleton_append] at h

theorem Reports.single (key : UniConfKey) (m : PathMap Segment Str) (value : Str)
    (missed told : Prop) [Decidable told] (hnew : m [] ≠ some value ↔ told ∨ missed)
    (hsilent : missed → ¬ told) :
    Reports key.path [] missed m (assign [] m [] (some value))
      (if told then [⟨key, some value⟩] else []) := by
  have hroot : assign [] m [] (some value) [] = some value :=
    assign_some_self [] m [] value
  constructor
  · intro d hd
    split at hd
    · obtain rfl := mem_singleton.mp hd
      exact ⟨by simp, [], by rw [append_nil], hroot⟩
    · cases hd
  · intro q hq
    cases q with
    | cons s q =>
      have hsame := congrFun (assign_nil_below [] m s value) q
      exact absurd hsame.symm hq
    | nil =>
      rw [hroot] at hq
      rcases hnew.mp hq with h | h
      · rw [if_pos h]
        exact .inr ⟨_, mem_singleton_self _, by rw [append_nil]⟩
      · exact .inl ⟨h, rfl⟩
  · intro h
    rw [hroot]
    exact hnew.mpr (.inr h)
  · intro h
    rw [if_neg (hsilent h)]
    simp

open Reports

theorem Reports.through (key : UniConfKey) (m : PathMap Segment Str) (told : Prop)
    [Decidable told] (htold : told ↔ m [] = none) {s : Segment} {missed : Prop} {value : Str}
    (hchild : Reports (key.path ++ [s]) t missed (m.below s)
      (assign [] (m.below s) t (some value)) ds) :
    Reports key.path (s :: t) missed m (assign [] m (s :: t) (some value))
      ((if told then [⟨key, some []⟩] else []) ++ ds) := by
  have hroot : assign [] m (s :: t) (some value) [] = some ((m []).getD []) :=
    assign_cons_nil [] m s t value
  apply cons
  · intro d hd
    split at hd
    · rename_i h
      obtain rfl := mem_singleton.mp hd
      refine ⟨by simp, rfl, ?_⟩
      rw [hroot, htold.mp h]
      rfl
    · cases hd
  · intro hne
    have hnone : m [] = none := by
      cases hm : m [] with
      | none => rfl
      | some v =>
        rw [hroot, hm] at hne
        exact absurd rfl hne
    rw [if_pos (htold.mpr hnone)]
    exact ⟨_, mem_singleton_self _, rfl⟩
  · rw [assign_cons_below]
    exact hchild
  · intro u hu
    exact assign_cons_below_ne [] m t (some value) hu

theorem reports_createNodes (base : UniTempGen) (value : Str) (hpre : pre.Plain)
    (hrest : rest.Plain) :
    Reports pre.path (path rest) False (base.content.under pre.path)
      (assign [] (base.content.under pre.path) (path rest) (some value))
      (createNodes base (some value) pre rest).2 := by
  induction rest generalizing pre with
  | nil =>
    apply single
    · rw [under_nil base hpre]
      simp
    · exact fun h => h.elim
  | cons s rest ih =>
    obtain ⟨hs, hrest⟩ := plain_cons.mp hrest
    have hpre' : Plain (pre ++ [s]) := hpre.concat hs
    have hchild := ih hpre' hrest
    rw [under_concat base pre hs, path_concat pre hs rfl] at hchild
    rw [path_cons_of_ne hs]
    apply through pre _ _ _ hchild
    rw [under_nil base hpre]
    simp

theorem reports_createValue (value : Str) (pre : UniConfKey) (hrest : rest.Plain) :
    Reports pre.path (path rest) False (fun _ => none)
      (assign [] (fun _ => none) (path rest) (some value)) (createValue value pre rest).2 := by
  induction rest generalizing pre with
  | nil =>
    exact single pre (fun _ => none) value False True (by simp) (fun h => h.elim)
  | cons s rest ih =>
    obtain ⟨hs, hrest⟩ := plain_cons.mp hrest
    have hchild := ih (pre ++ [s]) hrest
    rw [path_concat pre hs rfl] at hchild
    rw [path_cons_of_ne hs]
    exact through pre (fun _ => none) True (by simp) hchild

theorem reports_setValueLoop (value : Str) (pre : UniConfKey) (node : Option UniConfValueTree)
    (hrest : rest.Plain) :
    Reports pre.path (path rest) False (Tree.contents node)
      (assign [] (Tree.contents node) (path rest) (some value))
      (setValueLoop value pre node rest).2 := by
  induction rest generalizing pre node with
  | nil =>
    cases node with
    | none => exact reports_createValue value pre hrest
    | some node =>
      have h := single pre node.content value False (value ≠ node.val)
        (by simp [eq_comm]) (fun h => h.elim)
      simp only [setValueLoop]
      split
      · rename_i hne
        rwa [if_pos hne] at h
      · rename_i hne
        rwa [if_neg hne] at h
  | cons s rest ih =>
    obtain ⟨hs, hrest'⟩ := plain_cons.mp hrest
    cases node with
    | none => exact reports_createValue value pre hrest
    | some node =>
      have hchild := ih (pre ++ [s]) (node.kids.lookup (fold s)) hrest'
      rw [path_concat pre hs rfl, ← Tree.content_below] at hchild
      rw [path_cons_of_ne hs]
      simp only [setValueLoop, if_neg hs]
      exact through pre node.content False (by simp) hchild

/-! ## The case in which nothing is said -/

/-- The key's node is a `NEWNODE`, and the key has a non-empty value in the base, which is to
be changed to another non-empty value. -/
def Silent (g : UniTransactionGen) (key : UniConfKey) (value : WvString) : Prop :=
  (∃ root node flag, g.root = some root ∧ UniConfTree.find root key = some node ∧
    node.val = .newNode flag) ∧
  (g.base.get key).not = false ∧ value.not = false ∧ g.base.get key ≠ value

/-- `Silent`, seen from a node on the way. -/
def SilentAt (base : UniTempGen) (pre : UniConfKey) (node : Option UniConfChangeTree)
    (rest : UniConfKey) (value : WvString) : Prop :=
  (∃ n flag, (node.bind fun node => UniConfTree.find node rest) = some n ∧ n.val = .newNode flag) ∧
  (base.get (pre ++ rest)).not = false ∧ value.not = false ∧ base.get (pre ++ rest) ≠ value

theorem silent_iff (g : UniTransactionGen) (key : UniConfKey) (value : WvString) :
    Silent g key value ↔ SilentAt g.base [] g.root key value := by
  unfold Silent SilentAt
  rw [nil_append]
  apply and_congr_left
  intro _
  cases hroot : g.root with
  | none => simp
  | some root => simp

theorem newNode_told (currval : WvString) (value : Str) :
    currval.getD [] ≠ value ↔
      (currval.not != WvString.not (some value) && currval != some value) = true ∨
        (currval.not = false ∧ WvString.not (some value) = false ∧ currval ≠ some value) := by
  cases currval with
  | none =>
    by_cases hv : value = []
    · simp [hv]
    · simp [hv, Ne.symm hv]
  | some b =>
    by_cases hb : b = []
    · by_cases hv : value = []
      · simp [hb, hv]
      · simp [hb, hv, Ne.symm hv]
    · by_cases hv : value = []
      · simp [hb, hv]
      · simp [hb, hv]

theorem vivify_told (base : UniTempGen) (value : Str) (pre : UniConfKey)
    (node : UniConfChangeTree) :
    (vivify base (some value) pre node).2 =
      if node.val = .blank ∧ base.get pre = none then [⟨pre, some []⟩] else [] := by
  unfold vivify newNode
  by_cases hblank : node.val = .blank
  · simp [hblank]
  · simp [hblank]

theorem visible_eq_none_iff {node : UniConfChangeTree} (hn : node.val.Through) (b : WvString) :
    visible (some node) [] b = none ↔ node.val = .blank ∧ b = none := by
  refine through_cases hn ?_ ?_ ?_ <;> intros <;> simp [visible]

theorem reports_none (g : UniTransactionGen) (value : Str) (hpre : pre.Plain) (hrest : rest.Plain) :
    Reports pre.path (path rest) (SilentAt g.base pre none rest (some value))
      (overlay none (g.base.content.under pre.path))
      (assign [] (overlay none (g.base.content.under pre.path)) (path rest) (some value))
      (setChange g (some value) pre none rest).2 := by
  rw [setChange_none g (some value) (hpre.append hrest), overlay_none]
  apply (reports_createNodes g.base value hpre hrest).congr
  simp [SilentAt]

theorem reports_newTree (g : UniTransactionGen) (value : Str) (newtree : Option UniConfValueTree)
    (pre : UniConfKey) (hrest : rest.Plain) (m : PathMap Segment Str) :
    Reports pre.path (path rest)
      (SilentAt g.base pre (some ⟨.newTree newtree, .nil⟩) rest (some value))
      (overlay (some ⟨.newTree newtree, .nil⟩) m)
      (assign [] (overlay (some ⟨.newTree newtree, .nil⟩) m) (path rest) (some value))
      (setChange g (some value) pre (some ⟨.newTree newtree, .nil⟩) rest).2 := by
  rw [setChange_newTree, overlay_newTree]
  apply (reports_setValueLoop value pre newtree hrest).congr
  cases rest with
  | nil => simp [SilentAt, find]
  | cons s rest =>
    have hs := (plain_cons.mp hrest).1
    simp [SilentAt, find, findchild_of_ne hs]

theorem reports_end (g : UniTransactionGen) (value : Str) (hpre : pre.Plain)
    {n : UniConfChangeTree} (hn : n.val.Through) :
    Reports pre.path [] (SilentAt g.base pre (some n) [] (some value))
      (overlay (some n) (g.base.content.under pre.path))
      (assign [] (overlay (some n) (g.base.content.under pre.path)) [] (some value))
      (setChange g (some value) pre (some n) []).2 := by
  rw [setChange_end g (some value) pre hn]
  obtain ⟨mode, kids⟩ := n
  have hroot := under_nil g.base hpre
  cases mode with
  | newTree newtree => exact absurd hn id
  | newValue newvalue =>
    refine single pre _ value _ (newvalue ≠ value) ?_ ?_
    · simp [overlay, visible, SilentAt, find]
    · simp [SilentAt, find]
  | newNode flag =>
    refine single pre _ value _
      (((g.base.get pre).not != WvString.not (some value) &&
        g.base.get pre != some value) = true) ?_ ?_
    · simp only [overlay, hroot, visible, SilentAt, find, append_nil]
      simpa using newNode_told (g.base.get pre) value
    · simp only [SilentAt, find, append_nil]
      rintro ⟨-, hcurr, hvalue, -⟩
      simp [hcurr, hvalue]
  | blank =>
    refine single pre _ value _ (g.base.get pre ≠ some value) ?_ ?_
    · simp only [overlay, hroot, visible]
      simp [SilentAt, find]
    · simp [SilentAt, find]

theorem reports_setChange (g : UniTransactionGen) (value : Str) (hpre : pre.Plain)
    {node : Option UniConfChangeTree} (hnode : Coherent node (g.base.content.under pre.path))
    (hrest : rest.Plain) :
    Reports pre.path (path rest) (SilentAt g.base pre node rest (some value))
      (overlay node (g.base.content.under pre.path))
      (assign [] (overlay node (g.base.content.under pre.path)) (path rest) (some value))
      (setChange g (some value) pre node rest).2 := by
  induction rest generalizing pre node with
  | nil =>
    rcases node_cases node with rfl | ⟨newtree, kids, rfl⟩ | ⟨n, rfl, hn⟩
    · exact reports_none g value hpre hrest
    · obtain rfl := (Tree.everywhere_some.mp hnode.nodes).1.1
      exact reports_newTree g value newtree pre hrest _
    · exact reports_end g value hpre hn
  | cons s rest ih =>
    obtain ⟨hs, hrest'⟩ := plain_cons.mp hrest
    rcases node_cases node with rfl | ⟨newtree, kids, rfl⟩ | ⟨n, rfl, hn⟩
    · exact reports_none g value hpre hrest
    · obtain rfl := (Tree.everywhere_some.mp hnode.nodes).1.1
      exact reports_newTree g value newtree pre hrest _
    · have hunder := under_concat g.base pre hs
      have hchild := ih (hpre.concat hs) (hunder ▸ hnode.child (fold s)) hrest'
      rw [hunder, ← overlay_below hn, path_concat pre hs rfl] at hchild
      have hsilent : SilentAt g.base (pre ++ [s]) (n.kids.lookup (fold s)) rest (some value) ↔
          SilentAt g.base pre (some n) (s :: rest) (some value) := by
        simp [SilentAt, find, findchild_of_ne hs]
      rw [setChange_through g (some value) pre hn hs, path_cons_of_ne hs]
      have htold : (n.val = .blank ∧ g.base.get pre = none) ↔
          overlay (some n) (g.base.content.under pre.path) [] = none := by
        rw [overlay, under_nil g.base hpre, visible_eq_none_iff hn]
      rw [vivify_told]
      exact through pre _ _ htold (hchild.congr hsilent)

theorem set_told_iff (g : UniTransactionGen) (hg : Coherent g.root g.base.content)
    {key : UniConfKey} (hkey : key.Plain) (value : WvString) :
    mirror g.view ((g.set key value).2.map note) = (g.set key value).1.view ↔
      ¬ Silent g key value := by
  have hview : (g.set key value).1.view = assign [] g.view key.path value :=
    overlay_setChange g value plain_nil g.root hkey g.base.content
  rw [hview, silent_iff]
  cases value with
  | none =>
    have hnot : ¬ SilentAt g.base [] g.root key none := by simp [SilentAt]
    refine iff_of_true ?_ hnot
    rcases removes_setChange g plain_nil hg hkey with h | ⟨hnil, hnone⟩
    · exact h.mirror g.view
    · have hds : (g.set key none).2 = [] := hnil
      have hunder : ∀ q, g.view (key.path ++ q) = none := hnone
      rw [hds, assign_none, prune_of_none hunder]
      rfl
  | some value =>
    have hreports := reports_setChange g value plain_nil hg hkey
    have hsound : ∀ n ∈ (g.set key (some value)).2.map note, ∀ p, Touches n p →
        p = n.1 ∧ assign [] g.view key.path (some value) p = n.2 := by
      intro n hn p ht
      obtain ⟨d, hd, rfl⟩ := List.mem_map.mp hn
      obtain ⟨hv, q, hq, hm⟩ := hreports.sound d hd
      rcases ht with hp | ⟨hnone, -⟩
      · have hq' : d.key.path = q := hq
        refine ⟨hp, ?_⟩
        rw [hp, note, hq']
        exact hm
      · exact absurd hnone hv
    constructor
    · intro hmirror hsilent
      apply hreports.differs hsilent
      have hsame : mirror g.view ((g.set key (some value)).2.map note) key.path =
          g.view key.path := by
        apply mirror_of_not_touched
        intro n hn ht
        have hp := (hsound n hn _ ht).1
        obtain ⟨d, hd, rfl⟩ := List.mem_map.mp hn
        exact hreports.absent hsilent d hd hp.symm
      rw [hmirror] at hsame
      exact hsame.symm
    · intro hsilent
      funext p
      apply mirror_eq_of_touched
      · intro n hn ht
        exact (hsound n hn p ht).2.symm
      · by_cases hp : g.view p = assign [] g.view key.path (some value) p
        · exact .inl hp
        · rcases hreports.complete p hp with ⟨h, -⟩ | ⟨d, hd, hk⟩
          · exact absurd h hsilent
          · exact .inr ⟨d.note, mem_map_of_mem hd, .inl hk.symm⟩

/-! ## Sequences of sets -/

/-- The generator and a listener's map after some sets of the transaction. -/
def runSets (s : UniTransactionGen × PathMap Segment Str) (sets : List PlainSet) :
    UniTransactionGen × PathMap Segment Str :=
  sets.foldl (fun s p =>
    ((s.1.set p.1 p.2).1, PathMap.mirror s.2 ((s.1.set p.1 p.2).2.map note))) s

theorem runSets_concat (s : UniTransactionGen × PathMap Segment Str) (sets : List PlainSet)
    (p : PlainSet) :
    runSets s (sets ++ [p]) =
      (((runSets s sets).1.set p.1 p.2).1,
        mirror (runSets s sets).2 (((runSets s sets).1.set p.1 p.2).2.map note)) := by
  simp [runSets]

theorem coherent_runSets {g : UniTransactionGen} (hg : Coherent g.root g.base.content)
    (mirror : PathMap Segment Str) (sets : List PlainSet) :
    Coherent (runSets (g, mirror) sets).1.root (runSets (g, mirror) sets).1.base.content := by
  induction sets using reverseRecOn with
  | nil => exact hg
  | append_singleton sets p ih =>
    rw [runSets_concat]
    exact (stored_set ih p.1 p.2).coherent

/-- Starting in any reachable state, a listener has the view after each of a sequence of sets
exactly if none of them is silent. -/
theorem sets_told_iff (base : UniTempGen) (os : List Op) (sets : List PlainSet) :
    let g := (run (create base, (create base).view) os).1
    (∀ done, done <+: sets → (runSets (g, g.view) done).2 = (runSets (g, g.view) done).1.view) ↔
    ∀ done p, done ++ [p] <+: sets → ¬ Silent (runSets (g, g.view) done).1 p.1 p.2 := by
  intro g
  have hg : Coherent g.root g.base.content :=
    (run_spec (g := create base) (coherent_none _) os).1
  constructor
  · intro hall done p hpre
    have hbefore := hall done ((prefix_append _ _).trans hpre)
    have hafter := hall (done ++ [p]) hpre
    rw [runSets_concat, hbefore] at hafter
    exact (set_told_iff _ (coherent_runSets hg g.view done) p.1.2 p.2).mp hafter
  · intro hall done
    induction done using reverseRecOn with
    | nil => exact fun _ => rfl
    | append_singleton done p ih =>
      intro hpre
      have hbefore := ih ((prefix_append _ _).trans hpre)
      rw [runSets_concat, hbefore]
      exact (set_told_iff _ (coherent_runSets hg g.view done) p.1.2 p.2).mpr (hall done p hpre)

/-- `a/b` is set while the base has a value at `a`, and then `a` is set: nothing is said. -/
theorem sets_told_fails :
    let base := (empty.set [[97]] (some [120])).1
    let s := runSets (create base, (create base).view)
      [(⟨[[97], [98]], by decide⟩, some [49]), (⟨[[97]], by decide⟩, some [121])]
    s.2 [[97]] = some [120] ∧ s.1.get [[97]] = some [121] ∧ s.2 ≠ s.1.view := by
  have hmirror : (runSets (create (empty.set [[97]] (some [120])).1,
      (create (empty.set [[97]] (some [120])).1).view)
      [(⟨[[97], [98]], by decide⟩, some [49]), (⟨[[97]], by decide⟩, some [121])]).2 [[97]] =
        some [120] := by decide
  have hview : (runSets (create (empty.set [[97]] (some [120])).1,
      (create (empty.set [[97]] (some [120])).1).view)
      [(⟨[[97], [98]], by decide⟩, some [49]), (⟨[[97]], by decide⟩, some [121])]).1.view [[97]] =
        some [121] := by decide
  refine ⟨hmirror, by decide, ?_⟩
  intro h
  have h' := congrFun h [[97]]
  rw [hmirror, hview] at h'
  cases h'

end UniTransactionGen

end WvStreams
