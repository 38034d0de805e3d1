import WvStreams.UniConf.HashTree

/-!
# `UniTempGen`

The generator that keeps its keys in memory. Its content is a partial map from paths to
values (`UniTempGen.content`). A `set` stores into that map (`content_set`) and announces,
in an order that an observer can follow, the keys whose value it changes (`steps_set`).
-/

namespace WvStreams

open Lib UniConfKey UniConfTree PathMap Delta List

structure UniTempGen where
  root : Option UniConfValueTree
  proper : ∀ t ∈ root, UniConfTree.Proper t

namespace UniTempGen

def empty : UniTempGen := ⟨none, nofun⟩

def get (g : UniTempGen) (key : UniConfKey) : WvString :=
  match g.root with
  | none => none
  | some root =>
    if key.hastrailingslash then none else (UniConfTree.find root key).map Tree.val

def exists_ (g : UniTempGen) (key : UniConfKey) : Bool := (g.get key).isSome

/-- The loop of `set` for a value: `node` is the node that was reached, if it exists, `pre` its
`fullkey`, and `rest` are the segments still to come. -/
def setLoop (value : Str) (pre : UniConfKey) (node : Option UniConfValueTree) :
    UniConfKey → UniConfValueTree × List Delta
  | [] =>
    match node with
    | none => (⟨value, .nil⟩, [⟨pre, some value⟩])
    | some node =>
      if value ≠ node.val then (⟨value, node.kids⟩, [⟨pre, some value⟩]) else (node, [])
  | s :: rest =>
    -- `findchild` of an empty segment is the node itself
    if s = [] then setLoop value pre node rest
    else
      match node with
      | none =>
        let (child, ds) := setLoop value (pre ++ [s]) none rest
        (⟨[], Forest.insert .nil s child⟩, ⟨pre, some []⟩ :: ds)
      | some node =>
        let (child, ds) := setLoop value (pre ++ [node.kids.spelling s]) (node.kids.lookup (fold s)) rest
        (⟨node.val, node.kids.insert s child⟩, ds)

/-- The new root and the announcements of `set`. -/
def setRoot (root : Option UniConfValueTree) (key : UniConfKey) (value : WvString) :
    Option UniConfValueTree × List Delta :=
  let trailing_slash := key.hastrailingslash
  let key := if trailing_slash then key.dropLast else key
  match value with
  | none =>
    match root with
    | none => (none, [])
    | some root =>
      match UniConfTree.find root key with
      | none => (some root, [])
      | some node =>
        (Tree.remove root (key.filter (· ≠ [])),
          (node.postorder (UniConfTree.fullkey root key)).map fun k => ⟨k, none⟩)
  | some value =>
    if trailing_slash then (root, [])
    else
      let (root, ds) := setLoop value [] root key
      (some root, ds)

theorem setLoop_tree (value : Str) (pre : UniConfKey) (node : Option UniConfValueTree)
    (rest : UniConfKey) :
    (setLoop value pre node rest).1 = Tree.write [] node (rest.filter (· ≠ [])) value := by
  induction rest generalizing pre node with
  | nil =>
    cases node with
    | none => rfl
    | some node =>
      simp only [setLoop, filter_nil, Tree.write]
      split
      · rfl
      · rename_i h
        have hv : value = node.val := by simpa using h
        rw [hv]
  | cons s rest ih =>
    by_cases hs : s = []
    · subst hs
      unfold setLoop
      simpa using ih pre node
    · have hf : (s :: rest).filter (· ≠ []) = s :: rest.filter (· ≠ []) := by simp [hs]
      rw [hf]
      cases node with
      | none | some node => simp only [setLoop, if_neg hs, Tree.write, ih]

theorem filter_names (key : UniConfKey) : ∀ s ∈ key.filter (· ≠ []), s ≠ [] := by
  intro s hs
  simpa using (mem_filter.mp hs).2

theorem proper_setRoot {root : Option UniConfValueTree}
    (hr : ∀ t ∈ root, Proper t) (key : UniConfKey) (value : WvString) :
    ∀ t ∈ (setRoot root key value).1, Proper t := by
  unfold setRoot
  cases value with
  | none =>
    cases root with
    | none => exact hr
    | some root =>
      dsimp only
      split
      · exact hr
      · exact Tree.proper_remove (hr root rfl) (filter_names _)
  | some value =>
    dsimp only
    split
    · exact hr
    · intro t ht
      cases ht
      rw [setLoop_tree]
      exact Tree.proper_write [] hr (filter_names _) value

def set (g : UniTempGen) (key : UniConfKey) (value : WvString) : UniTempGen × List Delta :=
  (⟨(setRoot g.root key value).1, proper_setRoot g.proper key value⟩, (setRoot g.root key value).2)

def setv (g : UniTempGen) (pairs : List (UniConfKey × WvString)) : UniTempGen :=
  pairs.foldl (fun g p => (g.set p.1 p.2).1) g

/-- The children that `iterator` lists; a null iterator lists none. -/
def iterator (g : UniTempGen) (key : UniConfKey) : List (Segment × Str) :=
  match g.root with
  | none => []
  | some root =>
    match UniConfTree.find root key with
    | none => []
    | some node => node.kids.toList.map fun c => (c.1, c.2.val)

/-- The partial map from paths to values that the generator holds. -/
def content (g : UniTempGen) : PathMap Segment Str := Tree.contents g.root

/-- What `set` is to do with such a map: a value for a key with a trailing slash is ignored. -/
def refSet (m : PathMap Segment Str) (key : UniConfKey) (value : WvString) : PathMap Segment Str :=
  if key.hastrailingslash && value.isSome then m else PathMap.assign [] m key.path value

/-- What `get` is to find in such a map: nothing at a key with a trailing slash. -/
def refGet (m : PathMap Segment Str) (key : UniConfKey) : WvString :=
  if key.hastrailingslash then none else m key.path

theorem content_closed (g : UniTempGen) : g.content.Closed := Tree.contents_closed _

theorem get_eq (g : UniTempGen) (key : UniConfKey) : g.get key = refGet g.content key := by
  unfold get refGet content
  cases g.root with
  | none => simp
  | some root =>
    simp only [find_eq, Tree.contents_some, Tree.content]

variable {key : UniConfKey}

theorem get_of_plain (g : UniTempGen) (h : key.Plain) : g.get key = g.content key.path := by
  rw [get_eq, refGet, h.not_slash]
  rfl

theorem lists_iterator (g : UniTempGen) (key : UniConfKey) :
    Lists (g.iterator key) fun s => g.content (key.path ++ [s]) := by
  unfold iterator content
  cases hroot : g.root with
  | none => exact lists_nil
  | some root =>
    dsimp only
    rw [find_eq, Tree.contents_some]
    split
    · rename_i hf
      have hnone : ∀ s, root.content (key.path ++ [s]) = none := by
        intro s
        exact root.content_closed _ _ ((root.content_eq_none_iff _).mpr hf)
      simp only [hnone]
      exact lists_nil
    · rename_i node hf
      have hnode : Proper node := Tree.proper_find (g.proper root hroot) hf
      have hunder : ∀ s, root.content (key.path ++ [s]) = node.content [s] :=
        fun s => congrFun (Tree.content_under hf) [s]
      simp only [hunder]
      exact hnode.lists

theorem ne_nil_of_mem_iterator {g : UniTempGen} {c : Segment × Str} (hc : c ∈ g.iterator key) :
    c.1 ≠ [] := by
  unfold iterator at hc
  cases hroot : g.root with
  | none =>
    rw [hroot] at hc
    cases hc
  | some root =>
    rw [hroot] at hc
    dsimp only at hc
    rw [find_eq] at hc
    split at hc
    · cases hc
    · rename_i node hf
      have hnode : Proper node := Tree.proper_find (g.proper root hroot) hf
      obtain ⟨b, hb, rfl⟩ := mem_map.mp hc
      exact (Forest.Proper.ok_of_mem hnode hb).1

theorem path_dropSlash (key : UniConfKey) :
    path (if key.hastrailingslash then key.dropLast else key) = key.path := by
  split
  · rename_i h
    have hl : key.getLast? = some [] := by simpa [hastrailingslash] using h
    obtain ⟨k, rfl⟩ := getLast?_eq_some_iff.mp hl
    rw [dropLast_concat, path_slash]
  · rfl

theorem content_setRoot (root : Option UniConfValueTree) (key : UniConfKey) (value : WvString) :
    Tree.contents (setRoot root key value).1 = refSet (Tree.contents root) key value := by
  have hpath := path_dropSlash key
  unfold setRoot refSet
  cases value with
  | none =>
    simp only [Option.isSome_none, Bool.and_false, assign_none]
    cases root with
    | none =>
      exact (prune_of_none fun _ => rfl).symm
    | some root =>
      dsimp only
      rw [find_eq, hpath]
      split
      · rename_i hf
        exact (root.content_closed.prune_of_none ((root.content_eq_none_iff _).mpr hf)).symm
      · rw [Tree.contents_remove]
        exact congrArg _ hpath
  | some value =>
    cases h : key.hastrailingslash with
    | true => rfl
    | false =>
      simp only [Bool.false_eq_true, if_false, Option.isSome_some, Bool.and_true]
      rw [Tree.contents_some, setLoop_tree, Tree.content_write]
      rfl

theorem content_set (g : UniTempGen) (key : UniConfKey) (value : WvString) :
    (g.set key value).1.content = refSet g.content key value :=
  content_setRoot g.root key value

theorem setLoop_mem (value : Str) {pre : UniConfKey} {node : Option UniConfValueTree}
    {rest : UniConfKey} {d : Delta} (hd : d ∈ (setLoop value pre node rest).2) :
    d.value ≠ none ∧ ∃ q, d.key = pre ++ q ∧ Plain q := by
  have hself : ∀ v, d = ⟨pre, some v⟩ → d.value ≠ none ∧ ∃ q, d.key = pre ++ q ∧ Plain q := by
    rintro v rfl
    exact ⟨by simp, [], by simp, plain_nil⟩
  induction rest generalizing pre node with
  | nil =>
    cases node with
    | none => exact hself value (by simpa [setLoop] using hd)
    | some node =>
      simp only [setLoop] at hd
      split at hd
      · exact hself value (by simpa using hd)
      · cases hd
  | cons s rest ih =>
    by_cases hs : s = []
    · subst hs
      unfold setLoop at hd
      exact ih (by simpa using hd) hself
    · have hnext : ∀ (t : Segment) (child : Option UniConfValueTree), fold t = fold s →
          d ∈ (setLoop value (pre ++ [t]) child rest).2 →
          d.value ≠ none ∧ ∃ q, d.key = pre ++ q ∧ Plain q := by
        intro t child ht hd
        have hne : t ≠ [] := by
          rw [ne_eq, ← fold_eq_nil, ht, fold_eq_nil]
          exact hs
        have hdeep : ∀ v, d = ⟨pre ++ [t], some v⟩ → d.value ≠ none ∧ ∃ q,
            d.key = pre ++ [t] ++ q ∧ Plain q := by
          rintro v rfl
          exact ⟨by simp, [], by simp, plain_nil⟩
        obtain ⟨hv, q, hq, hplain⟩ := ih hd hdeep
        refine ⟨hv, t :: q, by simp [hq], ?_⟩
        exact plain_cons.mpr ⟨hne, hplain⟩
      cases node with
      | none =>
        simp only [setLoop, if_neg hs, mem_cons] at hd
        rcases hd with hd | hd
        · exact hself [] hd
        · exact hnext s none rfl hd
      | some node =>
        simp only [setLoop, if_neg hs] at hd
        exact hnext _ _ (Forest.fold_spelling _ _) hd

theorem steps_setLoop (value : Str) {m : PathMap Segment Str} (pre : UniConfKey)
    {node : Option UniConfValueTree} (hnode : m.under pre.path = Tree.contents node)
    (hanc : ∀ p, p <+: pre.path → p ≠ pre.path → m p ≠ none) (rest : UniConfKey) :
    Steps m ((setLoop value pre node rest).2.map note)
      (assign [] m (pre.path ++ path rest) (some value)) := by
  induction rest generalizing m pre node with
  | nil =>
    have hroot : m pre.path = Tree.contents node [] := by
      simpa using congrFun hnode []
    rw [path_nil, append_nil, assign_of_ancestors [] hanc]
    cases node with
    | none =>
      refine .cons ?_ (by simp) (by simp) (.nil _)
      simp [hroot]
    | some node =>
      simp only [setLoop]
      split
      · rename_i hv
        refine .cons ?_ (by simp) (by simp) (.nil _)
        simpa [hroot] using hv.symm
      · rename_i hv
        have he : m pre.path = some value := by
          rw [hroot]
          simpa using (Eq.symm (not_not.mp hv))
        rw [← he, Function.update_eq_self]
        exact .nil _
  | cons s rest ih =>
    by_cases hs : s = []
    · subst hs
      unfold setLoop
      simpa using ih pre hnode hanc
    · -- whichever spelling `t` the next node has, `ih` continues from there
      have hnext : ∀ (t : Segment) (m' : PathMap Segment Str) (child : Option UniConfValueTree),
          fold t = fold s → (∀ p, p <+: pre.path → m' p ≠ none) →
          (∀ x, m' (pre.path ++ fold s :: x) = Tree.contents child x) →
          Steps m' ((setLoop value (pre ++ [t]) child rest).2.map note)
            (assign [] m' (pre.path ++ path (s :: rest)) (some value)) := by
        intro t m' child ht hup hchild
        have hpath : path (pre ++ [t]) = pre.path ++ [fold s] :=
          path_concat pre hs ht
        have hkey : pre.path ++ path (s :: rest) =
            path (pre ++ [t]) ++ path rest := by
          rw [path_cons_of_ne hs, hpath, append_assoc, singleton_append]
        rw [hkey]
        apply ih
        · funext x
          simpa [hpath] using hchild x
        · intro p hp hne
          rw [hpath] at hp hne
          rcases prefix_concat_iff.mp hp with h | h
          · exact absurd h hne
          · exact hup p h
      have hchild : ∀ x : List Segment,
          m (pre.path ++ fold s :: x) = Tree.contents node (fold s :: x) :=
        fun x => congrFun hnode _
      cases node with
      | none =>
        have hnone : m pre.path = none := by simpa using congrFun hnode []
        simp only [setLoop, if_neg hs, map_cons]
        have hup : pre.path <+: pre.path ++ path (s :: rest) := prefix_append _ _
        have hne : pre.path ≠ pre.path ++ path (s :: rest) := by
          simp [path_cons_of_ne hs]
        rw [← assign_update_vivified [] hnone hup hne]
        refine .cons (by simp [hnone]) ?_ (by simp) (hnext s _ none rfl ?_ ?_)
        · intro n hn he
          obtain ⟨d, hd, rfl⟩ := mem_map.mp hn
          obtain ⟨-, q, hq, -⟩ := setLoop_mem value hd
          have he' : path d.key = pre.path := he
          rw [hq, path_append, path_concat pre hs rfl] at he'
          simpa using congrArg length he'
        · intro p hp
          by_cases he : p = pre.path
          · simp [he]
          · rw [Function.update_of_ne he]
            exact hanc p hp he
        · intro x
          have hx : pre.path ++ fold s :: x ≠ pre.path := by simp
          rw [Function.update_of_ne hx, hchild]
          rfl
      | some node =>
        simp only [setLoop, if_neg hs]
        apply hnext _ _ _ (Forest.fold_spelling _ _)
        · intro p hp
          by_cases he : p = pre.path
          · have : m pre.path = some node.val := by simpa using congrFun hnode []
            simp [he, this]
          · exact hanc p hp he
        · intro x
          rw [hchild, Tree.contents_some, Tree.content_cons]

theorem steps_removed {root node : UniConfValueTree} (hroot : Proper root)
    (hf : find root key = some node) :
    Steps root.content (((node.postorder (fullkey root key)).map fun k => ⟨k, none⟩).map note)
      (root.content.prune key.path) := by
  rw [find_eq] at hf
  have hnode : Proper node := Tree.proper_find hroot hf
  have hnotes : ((node.postorder (fullkey root key)).map fun k =>
      (⟨k, none⟩ : Delta)).map note =
      ((node.postorder (fullkey root key)).map (map fold)).map
        fun p => (p, none) := by
    simp only [map_map]
    apply map_congr_left
    intro k hk
    have hplain := hnode.plain_of_mem_postorder (fullkey_plain root key) hk
    simp only [Function.comp_apply, note, hplain.path_eq]
  rw [hnotes]
  apply Steps.prune
  · intro p
    rw [Tree.mem_postorder hnode, map_fold_fullkey]
    have hunder := Tree.content_under hf
    constructor
    · rintro ⟨q, rfl, h⟩
      rw [← hunder] at h
      exact ⟨prefix_append _ _, h⟩
    · rintro ⟨⟨q, rfl⟩, h⟩
      exact ⟨q, rfl, by rw [← hunder]; exact h⟩
  · exact Tree.pairwise_postorder hnode _

theorem steps_setRoot {root : Option UniConfValueTree}
    (hr : ∀ t ∈ root, Proper t) (key : UniConfKey) (value : WvString) :
    Steps (Tree.contents root) ((setRoot root key value).2.map note)
      (refSet (Tree.contents root) key value) := by
  have hpath := path_dropSlash key
  unfold setRoot refSet
  cases value with
  | none =>
    simp only [Option.isSome_none, Bool.and_false, Bool.false_eq_true, if_false, assign_none]
    cases root with
    | none =>
      rw [Tree.contents_none, prune_of_none fun _ => rfl]
      exact .nil _
    | some root =>
      dsimp only
      split
      · rename_i hf
        rw [find_eq, hpath] at hf
        have hnone := (root.content_eq_none_iff _).mpr hf
        rw [Tree.contents_some, root.content_closed.prune_of_none hnone]
        exact .nil _
      · rename_i node hf
        have h := steps_removed (hr root rfl) hf
        rwa [hpath] at h
  | some value =>
    cases h : key.hastrailingslash with
    | true => exact .nil _
    | false =>
      simp only [Bool.false_eq_true, if_false, Option.isSome_some, Bool.and_true]
      exact steps_setLoop value [] rfl
        (fun p hp hne => absurd (prefix_nil.mp hp) hne) key

/-- Every announcement of `set` is a change of one key, and together they lead from the old
content to the new one. -/
theorem steps_set (g : UniTempGen) (key : UniConfKey) (value : WvString) :
    Steps g.content ((g.set key value).2.map note) (g.set key value).1.content := by
  rw [content_set]
  exact steps_setRoot g.proper key value

theorem mem_set {g : UniTempGen} {value : WvString} {d : Delta} (hd : d ∈ (g.set key value).2) :
    d.key.Plain ∧ (d.value = none ↔ value = none) := by
  have hd' : d ∈ (setRoot g.root key value).2 := hd
  unfold setRoot at hd'
  cases value with
  | none =>
    cases hroot : g.root with
    | none =>
      rw [hroot] at hd'
      cases hd'
    | some root =>
      rw [hroot] at hd'
      dsimp only at hd'
      split at hd'
      · cases hd'
      · rename_i node hf
        obtain ⟨k, hk, rfl⟩ := mem_map.mp hd'
        rw [find_eq] at hf
        have hnode : Proper node := Tree.proper_find (g.proper root hroot) hf
        exact ⟨hnode.plain_of_mem_postorder (fullkey_plain _ _) hk, by simp⟩
  | some value =>
    dsimp only at hd'
    split at hd'
    · cases hd'
    · obtain ⟨hv, q, hq, hplain⟩ := setLoop_mem value hd'
      refine ⟨?_, by simpa using hv⟩
      rw [hq]
      exact hplain

theorem filter_set (g : UniTempGen) (key : UniConfKey) (value : WvString) (k : ValidKey) :
    ((g.set key value).2.filter fun d => d.key.same k).map Delta.value =
      if g.get k = (g.set key value).1.get k then [] else [(g.set key value).1.get k] := by
  obtain ⟨k, hk⟩ := k
  rcases hk.cases with hplain | ⟨k, -, hplain, rfl⟩
  · have hsame : ∀ d ∈ (g.set key value).2, d.key.same k = decide (d.note.1 = k.path) := by
      intro d hd
      have hdk := (mem_set hd).1
      show (d.key.map fold == k.map fold) = decide (d.key.path = k.path)
      rw [hdk.path_eq, hplain.path_eq]
      exact beq_eq_decide _ _
    rw [filter_congr hsame, get_of_plain _ hplain, get_of_plain _ hplain]
    have hnotes := congrArg (map Prod.snd) ((steps_set g key value).filter_eq k.path)
    rw [filter_map, map_map] at hnotes
    have hfun : (Prod.snd ∘ Delta.note) = Delta.value := rfl
    rw [hfun] at hnotes
    calc _ = _ := hnotes
      _ = _ := by split <;> rfl
  · have hslash : ∀ g' : UniTempGen, g'.get (k ++ [[]]) = none := by
      intro g'
      rw [get_eq, refGet, slash_hastrailingslash]
      rfl
    rw [hslash, hslash, if_pos rfl, map_eq_nil_iff, filter_eq_nil_iff]
    intro d hd
    have hdk := (mem_set hd).1
    simp only [same, map_append, beq_iff_eq]
    intro he
    have hlast : fold ([] : Segment) ∈ d.key.map fold := by
      rw [he]
      simp
    obtain ⟨s, hs, hs'⟩ := mem_map.mp hlast
    exact hdk (fold_eq_nil.mp hs' ▸ hs)

theorem set_order (g : UniTempGen) (key : UniConfKey) (value : WvString) :
    (g.set key value).2.Pairwise fun a b => a.value = none → ¬ a.key.path <+: b.key.path := by
  cases value with
  | none =>
    have hall : ∀ n ∈ (g.set key none).2.map note, n.2 = none := by
      intro n hn
      obtain ⟨d, hd, rfl⟩ := mem_map.mp hn
      exact (mem_set hd).2.mpr rfl
    have hord := (steps_set g key none).removals_order hall
    apply (pairwise_map.mp hord).imp
    intro a b h _
    exact h
  | some value =>
    apply pairwise_of_forall_mem_list
    intro a ha b _ hnone
    have := (mem_set ha).2.mp hnone
    cases this

theorem content_empty : empty.content = fun _ => none := rfl

theorem content_setv (g : UniTempGen) (calls : List (UniConfKey × WvString)) :
    (g.setv calls).content = calls.foldl (fun m c => refSet m c.1 c.2) g.content := by
  induction calls generalizing g with
  | nil => rfl
  | cons c calls ih =>
    have h := ih (g.set c.1 c.2).1
    rw [content_set] at h
    exact h

/-- `set` refines the reference map, and announces exactly the keys whose `get` it changes. -/
theorem set_refines_reference (calls : List (UniConfKey × WvString)) :
    let g := empty.setv calls
    let ref := calls.foldl (fun m c => refSet m c.1 c.2) fun _ => none
    (∀ key, g.get key = refGet ref key ∧ g.exists_ key = (refGet ref key).isSome) ∧ ∀ key value,
      let ds := (g.set key value).2
      (∀ k : ValidKey, (ds.filter fun d => d.key.same k).map Delta.value =
        if g.get k = (g.set key value).1.get k then [] else [(g.set key value).1.get k]) ∧
      (∀ d ∈ ds, d.key.Valid) ∧
      ds.Pairwise fun a b => a.value = none → ¬ a.key.path <+: b.key.path := by
  intro g ref
  have href : g.content = ref := by
    rw [content_setv, content_empty]
  constructor
  · intro key
    have hget : g.get key = refGet ref key := by rw [get_eq, href]
    exact ⟨hget, by rw [exists_, hget]⟩
  · intro key value
    exact ⟨filter_set g key value, fun d hd => (mem_set hd).1.valid, set_order g key value⟩

end UniTempGen

end WvStreams
