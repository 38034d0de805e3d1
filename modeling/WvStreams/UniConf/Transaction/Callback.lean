import WvStreams.UniConf.Transaction.Set

/-!
# `UniTransactionGen::gencallback`

The base announces its changes key by key. `gencallback` passes on those that show through
the pending changes, with the value that is seen (`callback_told`), and keeps the flags of
the change tree in step with the base (`coherent_callback`). The modes of the tree do not
change, so neither does what it makes of a base (`visible_callback`).
-/

namespace WvStreams

open Lib UniConfKey WvString Option Function List Lib.Tree UniTransactionGen PathMap

namespace UniTransactionGen

/-- The loop of `gencallback`: the node with its flags, and the value to pass on, if any. -/
def callbackLoop (value : WvString) (node : UniConfChangeTree) (rest : UniConfKey) :
    UniConfChangeTree × Option WvString :=
  match node.val with
  | .newTree _ => (node, none)
  | mode =>
    match rest with
    | [] =>
      match mode with
      | .newValue _ => (node, none)
      | .newNode wasNullOrEmpty =>
        if wasNullOrEmpty && value.not then (node, none)
        else (⟨.newNode value.not, node.kids⟩, some (if value.isNone then some [] else value))
      | _ => (node, some value)
    | s :: rest =>
      if s = [] then callbackLoop value node rest
      else
        match node.kids.lookup (fold s) with
        | none => (node, some value)
        | some next =>
          let (next, told) := callbackLoop value next rest
          (⟨node.val, node.kids.insert s next⟩, told)

def gencallback (g : UniTransactionGen) (d : Delta) : UniTransactionGen × List Delta :=
  match g.root with
  | none => (g, [d])
  | some root =>
    let (root, told) := callbackLoop d.value root d.key
    (⟨some root, g.base⟩, told.toList.map fun value => ⟨d.key, value⟩)

/-- `flush_delta` of the base: its announcements reach `gencallback` one by one. -/
def dispatch (g : UniTransactionGen) : List Delta → UniTransactionGen × List Delta
  | [] => (g, [])
  | d :: ds =>
    let (g, told) := g.gencallback d
    let (g, told') := g.dispatch ds
    (g, told ++ told')

/-- A `set` on the base: the base changes first and then announces. -/
def baseSet (g : UniTransactionGen) (key : UniConfKey) (value : WvString) :
    UniTransactionGen × List Delta :=
  let (base, ds) := g.base.set key value
  dispatch ⟨g.root, base⟩ ds

theorem callbackLoop_newTree (value : WvString) (newtree : Option UniConfValueTree)
    (kids : Forest Segment Change) (rest : UniConfKey) :
    callbackLoop value ⟨.newTree newtree, kids⟩ rest = (⟨.newTree newtree, kids⟩, none) := by
  cases rest <;> rfl

variable {m : PathMap Segment Str} {node : UniConfChangeTree} {rest : UniConfKey} {value : WvString}

theorem callbackLoop_through (value : WvString) (h : node.val.Through) {s : Segment} (hs : s ≠ [])
    (rest : UniConfKey) :
    callbackLoop value node (s :: rest) =
      match node.kids.lookup (fold s) with
      | none => (node, some value)
      | some next =>
        (⟨node.val, node.kids.insert s (callbackLoop value next rest).1⟩,
          (callbackLoop value next rest).2) := by
  obtain ⟨mode, kids⟩ := node
  cases mode with
  | newTree newtree => exact absurd h id
  | newValue newvalue | newNode flag | blank =>
    conv_lhs => unfold callbackLoop
    simp only [if_neg hs]

theorem visible_insert {mode : Change} {kids : Forest Segment Change} {s : Segment}
    {child child' : UniConfChangeTree} (hlookup : kids.lookup (fold s) = some child)
    (hchild : ∀ p b, visible (some child') p b = visible (some child) p b)
    (p : List Segment) (b : WvString) :
    visible (some ⟨mode, kids.insert s child'⟩) p b = visible (some ⟨mode, kids⟩) p b := by
  rcases node_cases (some ⟨mode, kids⟩) with h | ⟨newtree, kids', h⟩ | ⟨n, h, hn⟩
  · cases h
  · obtain ⟨rfl, -⟩ := Tree.mk.inj (some.inj h)
    rw [visible_newTree, visible_newTree]
  · obtain rfl := some.inj h
    cases p with
    | nil => cases mode <;> rfl
    | cons t p =>
      have hn' : Change.Through (val (⟨mode, kids.insert s child'⟩ : UniConfChangeTree)) := hn
      rw [visible_cons hn, visible_cons hn', Forest.lookup_insert]
      split
      · rename_i ht
        rw [ht, hlookup]
        exact hchild p b
      · rfl

theorem visible_callbackLoop (value : WvString) (node : UniConfChangeTree) (hrest : rest.Plain)
    (p : List Segment) (b : WvString) :
    visible (some (callbackLoop value node rest).1) p b = visible (some node) p b := by
  induction rest generalizing node p b with
  | nil =>
    obtain ⟨mode, kids⟩ := node
    cases mode with
    | newTree newtree => rfl
    | newValue newvalue => rfl
    | newNode flag =>
      simp only [callbackLoop]
      split
      · rfl
      · cases p <;> rfl
    | blank => rfl
  | cons s rest ih =>
    obtain ⟨hs, hrest⟩ := plain_cons.mp hrest
    rcases node_cases (some node) with h | ⟨newtree, kids, h⟩ | ⟨n, h, hn⟩
    · cases h
    · obtain rfl := some.inj h
      rw [callbackLoop_newTree]
    · obtain rfl := some.inj h
      rw [callbackLoop_through value hn hs]
      split
      · rfl
      · rename_i next hlookup
        exact visible_insert hlookup (ih next hrest) p b

theorem callbackLoop_told (hnode : Coherent (some node) m) (hrest : rest.Plain)
    (hnew : m rest.path ≠ value) :
    (callbackLoop value node rest).2 =
      if visible (some node) rest.path (m rest.path) = visible (some node) rest.path value
      then none else some (visible (some node) rest.path value) := by
  induction rest generalizing node m with
  | nil =>
    have hok := (everywhere_some.mp hnode.nodes).1
    obtain ⟨mode, kids⟩ := node
    simp only [path_nil] at hnew ⊢
    cases mode with
    | newTree newtree | newValue newvalue => simp [callbackLoop, visible]
    | newNode flag =>
      obtain rfl : flag = not (m []) := hok
      have hseen : (if value.isNone then some [] else value) = some (value.getD []) := by
        cases value <;> rfl
      simp only [callbackLoop, visible, some.injEq, hseen]
      by_cases hboth : (m []).getD [] = [] ∧ value.getD [] = []
      · have hold : not (m []) = true := not_eq_true.mpr hboth.1
        have hval : not value = true := not_eq_true.mpr hboth.2
        simp [hold, hval, hboth]
      · have hflag : ¬ (not (m []) && not value) = true := by
          simpa only [Bool.and_eq_true, not_eq_true] using hboth
        have hne : ¬ (m []).getD [] = value.getD [] := by
          intro he
          apply hnew
          cases hm : m [] with
          | none => simp [hm, ← he] at hboth
          | some old =>
            cases value with
            | none => simp_all
            | some value => simpa [hm] using he
        rw [if_neg hflag, if_neg hne]
    | blank => simp [callbackLoop, visible, hnew]
  | cons s rest ih =>
    obtain ⟨hs, hrest⟩ := plain_cons.mp hrest
    rw [path_cons_of_ne hs] at hnew ⊢
    rcases node_cases (some node) with h | ⟨newtree, kids, h⟩ | ⟨n, h, hn⟩
    · cases h
    · obtain rfl := some.inj h
      rw [callbackLoop_newTree, visible_newTree, visible_newTree, if_pos rfl]
    · obtain rfl := some.inj h
      rw [callbackLoop_through value hn hs, visible_cons hn, visible_cons hn]
      have hchild := hnode.child (fold s)
      split
      · rename_i hlookup
        rw [hlookup, visible_none, visible_none, if_neg hnew]
      · rename_i next hlookup
        rw [hlookup] at hchild ⊢
        exact ih hchild hrest hnew

theorem QuietTree.visible_none {node : Option UniConfChangeTree} (h : QuietTree node)
    (q : List Segment) : visible node q none = none := by
  induction q generalizing node with
  | nil =>
    cases node with
    | none => rfl
    | some node =>
      obtain ⟨mode, kids⟩ := node
      rcases (everywhere_some.mp h).1 with hmode | hmode
      · obtain rfl : mode = .blank := hmode
        rfl
      · obtain rfl : mode = .newTree none := hmode
        rfl
  | cons s q ih =>
    cases node with
    | none => rfl
    | some node =>
      obtain ⟨hroot, hkids⟩ := everywhere_some.mp h
      obtain ⟨mode, kids⟩ := node
      rcases hroot with hmode | hmode
      · obtain rfl : mode = .blank := hmode
        exact ih (hkids s)
      · obtain rfl : mode = .newTree none := hmode
        rfl

theorem Coherent.vanished {node : Option UniConfChangeTree} (h : Coherent node m)
    {k : List Segment} {b v : WvString} (hv : visible node k v = none)
    (hb : visible node k b ≠ none) : v = none ∧ ∀ q, visible node (k ++ q) none = none := by
  induction k generalizing node m with
  | nil =>
    cases node with
    | none => exact ⟨hv, fun q => visible_none q none⟩
    | some node =>
      have hok := (everywhere_some.mp h.nodes).1
      obtain ⟨mode, kids⟩ := node
      cases mode with
      | newTree newtree => exact absurd hv hb
      | newValue newvalue | newNode flag => cases hv
      | blank =>
        refine ⟨hv, ?_⟩
        intro q
        cases q with
        | nil => rfl
        | cons s q => exact QuietTree.visible_none (hok s) q
  | cons s k ih =>
    rcases node_cases node with rfl | ⟨newtree, kids, rfl⟩ | ⟨n, rfl, hn⟩
    · rw [visible_none] at hv
      exact ⟨hv, fun q => visible_none _ none⟩
    · rw [visible_newTree] at hv hb
      exact absurd hv hb
    · rw [visible_cons hn] at hv hb
      obtain ⟨h1, h2⟩ := ih (h.child s) hv hb
      refine ⟨h1, ?_⟩
      intro q
      rw [cons_append, visible_cons hn]
      exact h2 q

theorem quiet_callbackLoop (value : WvString) (hnode : QuietTree (some node)) (rest : UniConfKey)
    (hrest : rest.Plain) : QuietTree (some (callbackLoop value node rest).1) := by
  induction rest generalizing node with
  | nil =>
    obtain ⟨mode, kids⟩ := node
    rcases (everywhere_some.mp hnode).1 with hmode | hmode
    · obtain rfl : mode = .blank := hmode
      exact hnode
    · obtain rfl : mode = .newTree none := hmode
      exact hnode
  | cons s rest ih =>
    obtain ⟨hs, hrest⟩ := plain_cons.mp hrest
    obtain ⟨hroot, hkids⟩ := everywhere_some.mp hnode
    rcases node_cases (some node) with h | ⟨newtree, kids, h⟩ | ⟨n, h, hn⟩
    · cases h
    · obtain rfl := some.inj h
      rw [callbackLoop_newTree]
      exact hnode
    · obtain rfl := some.inj h
      rw [callbackLoop_through value hn hs]
      split
      · exact hnode
      · rename_i next hlookup
        have hnext := hkids (fold s)
        rw [hlookup] at hnext
        exact everywhere_some.mpr ⟨hroot, quiet_insert hkids s (ih hnext hrest)⟩

theorem coherent_newTree {newtree : Option UniConfValueTree} {kids : Forest Segment Change}
    {m' : PathMap Segment Str} (hnode : Coherent (some ⟨.newTree newtree, kids⟩) m) :
    Coherent (some ⟨.newTree newtree, kids⟩) m' := by
  have hroot := (everywhere_some.mp hnode.nodes).1
  refine ⟨hnode.proper, everywhere_some.mpr ⟨hroot, ?_⟩⟩
  intro s
  obtain rfl : kids = .nil := hroot.1
  exact everywhere_none _

theorem coherent_callback_end (hnode : Coherent (some node) m) :
    Coherent (some (callbackLoop value node []).1) (update m [] value) := by
  obtain ⟨hroot, hkids⟩ := everywhere_some.mp hnode.nodes
  have hbelow : ∀ s, Tree.Everywhere (fun p n => NodeOk n (update m [] value (s :: p)))
      (node.kids.lookup s) := by
    intro s
    apply (hkids s).imp
    intro p n hn
    rwa [update_of_ne (by simp)]
  obtain ⟨mode, kids⟩ := node
  cases mode with
  | newTree newtree => exact coherent_newTree hnode
  | newValue newvalue => exact ⟨hnode.proper, everywhere_some.mpr ⟨trivial, hbelow⟩⟩
  | newNode flag =>
    simp only [callbackLoop]
    split
    · rename_i hboth
      refine ⟨hnode.proper, everywhere_some.mpr ⟨?_, hbelow⟩⟩
      have h : flag = true ∧ value.not = true := by simpa using hboth
      show flag = not (update m [] value [])
      rw [update_self, h.1, h.2]
    · refine ⟨?_, everywhere_some.mpr ⟨?_, hbelow⟩⟩
      · intro t ht
        cases ht
        exact hnode.proper ⟨.newNode flag, kids⟩ rfl
      show value.not = not (update m [] value [])
      rw [update_self]
  | blank => exact ⟨hnode.proper, everywhere_some.mpr ⟨hroot, hbelow⟩⟩

theorem coherent_callbackLoop (hnode : Coherent (some node) m) (hrest : rest.Plain) :
    Coherent (some (callbackLoop value node rest).1) (update m rest.path value) := by
  induction rest generalizing node m with
  | nil => exact coherent_callback_end hnode
  | cons s rest ih =>
    obtain ⟨hs, hrest⟩ := plain_cons.mp hrest
    obtain ⟨hroot, hkids⟩ := everywhere_some.mp hnode.nodes
    rw [path_cons_of_ne hs]
    rcases node_cases (some node) with h | ⟨newtree, kids, h⟩ | ⟨n, h, hn⟩
    · cases h
    · obtain rfl := some.inj h
      rw [callbackLoop_newTree]
      exact coherent_newTree hnode
    · obtain rfl := some.inj h
      have hother : ∀ t, t ≠ fold s → Tree.Everywhere
          (fun p n => NodeOk n (update m (fold s :: path rest) value (t :: p)))
          (node.kids.lookup t) := by
        intro t ht
        apply (hkids t).imp
        intro p n hn'
        rwa [update_cons_of_ne m _ p value ht]
      have hm : update m (fold s :: path rest) value [] = m [] :=
        update_of_ne (by simp) _ _
      rw [callbackLoop_through value hn hs]
      split
      · rename_i hlookup
        refine ⟨hnode.proper, everywhere_some.mpr ⟨hm ▸ hroot, ?_⟩⟩
        intro t
        by_cases ht : t = fold s
        · rw [ht, hlookup]
          exact everywhere_none _
        · exact hother t ht
      · rename_i next hlookup
        have hchild := hnode.child (fold s)
        rw [hlookup] at hchild
        have hnext := ih hchild hrest
        rw [← update_cons_below] at hnext
        apply coherent_insert (hnode.proper node rfl) hs hother hnext
        rw [hm]
        obtain ⟨mode, kids⟩ := node
        cases mode with
        | newTree newtree => exact absurd hn id
        | newValue newvalue => exact trivial
        | newNode flag => exact hroot
        | blank =>
          have hquiet := hroot (fold s)
          rw [hlookup] at hquiet
          exact quiet_insert hroot s (quiet_callbackLoop value hquiet rest hrest)

/-- One announcement of the base, whose content changes from `m` at one key. -/
structure Heard (g : UniTransactionGen) (m m' : PathMap Segment Str)
    (r : UniTransactionGen × List Delta) : Prop where
  base : r.1.base = g.base
  visible : ∀ p b, visible r.1.root p b = visible g.root p b
  coherent : Coherent r.1.root m'
  mirror : mirror (overlay g.root m) (r.2.map Delta.note) = overlay g.root m'

theorem overlay_update (node : Option UniConfChangeTree) (m : PathMap Segment Str)
    (k : List Segment) (v : WvString) :
    overlay node (update m k v) =
      update (overlay node m) k (visible node k v) := by
  funext p
  by_cases hp : p = k
  · simp [overlay, hp]
  · simp [overlay, update_of_ne hp]

/-- The announcement that passes `gencallback`, if it does. -/
def passed (root : Option UniConfChangeTree) (old : WvString) (d : Delta) : Option Delta :=
  if visible root d.key.path old = visible root d.key.path d.value then none
  else some ⟨d.key, visible root d.key.path d.value⟩

theorem gencallback_told (g : UniTransactionGen) (hg : Coherent g.root m) {d : Delta}
    (hd : d.key.Plain) (hnew : m d.key.path ≠ d.value) :
    (g.gencallback d).2 = (passed g.root (m d.key.path) d).toList := by
  unfold gencallback passed
  cases hroot : g.root with
  | none => simp [visible_none, hnew]
  | some root =>
    rw [hroot] at hg
    dsimp only
    rw [callbackLoop_told hg hd hnew]
    split <;> rfl

theorem gencallback_heard (g : UniTransactionGen) (hg : Coherent g.root m) {d : Delta}
    (hd : d.key.Plain) (hnew : m d.key.path ≠ d.value)
    (hleaf : d.value = none → ∀ q, q ≠ [] → m (d.key.path ++ q) = none) :
    Heard g m (update m d.key.path d.value) (g.gencallback d) := by
  constructor
  · unfold gencallback
    cases g.root <;> rfl
  · intro p b
    unfold gencallback
    cases hroot : g.root with
    | none => rw [hroot]
    | some root => exact visible_callbackLoop d.value root hd p b
  · unfold gencallback
    cases hroot : g.root with
    | none =>
      rw [hroot]
      exact coherent_none _
    | some root => exact coherent_callbackLoop (hroot ▸ hg) hd
  · rw [gencallback_told g hg hd hnew, overlay_update]
    unfold passed
    split
    · rename_i hsame
      rw [← hsame]
      exact (update_eq_self _ _).symm
    · rename_i hseen
      apply hear_eq_update
      intro hv q hq
      have hb : visible g.root d.key.path (m d.key.path) ≠ none := by
        intro h
        exact hseen (h.trans hv.symm)
      obtain ⟨hvalue, hbelow⟩ := hg.vanished hv hb
      show visible g.root (d.key.path ++ q) (m (d.key.path ++ q)) = none
      rw [hleaf hvalue q hq]
      exact hbelow q

theorem dispatch_heard {ds : List Delta} (hplain : ∀ d ∈ ds, d.key.Plain) (g : UniTransactionGen)
    {m' : PathMap Segment Str} (hg : Coherent g.root m)
    (hsteps : PathMap.Steps m (ds.map Delta.note) m') :
    Heard g m m' (g.dispatch ds) ∧
      (g.dispatch ds).2 = ds.filterMap fun d => passed g.root (m d.key.path) d := by
  induction ds generalizing g m with
  | nil =>
    cases hsteps
    exact ⟨⟨rfl, fun _ _ => rfl, hg, rfl⟩, rfl⟩
  | cons d ds ih =>
    rw [map_cons] at hsteps
    have hd : d.note = (d.key.path, d.value) := rfl
    rw [hd] at hsteps
    cases hsteps with
    | cons hnew honce hleaf hrest =>
      have hdplain := hplain d mem_cons_self
      have hfirst := gencallback_heard g hg hdplain hnew hleaf
      obtain ⟨hnext, htold⟩ := ih (fun e he => hplain e (mem_cons_of_mem _ he))
        (g.gencallback d).1 hfirst.coherent hrest
      have hover : ∀ m, overlay (g.gencallback d).1.root m = overlay g.root m := by
        intro m
        funext p
        exact hfirst.visible p (m p)
      constructor
      · constructor
        · exact hnext.base.trans hfirst.base
        · intro p b
          exact (hnext.visible p b).trans (hfirst.visible p b)
        · exact hnext.coherent
        · have hmirror := hnext.mirror
          rw [hover, hover, ← hfirst.mirror, ← mirror_append, ← map_append] at hmirror
          exact hmirror
      · have hsame : ∀ e ∈ ds,
            passed (g.gencallback d).1.root (update m d.key.path d.value e.key.path) e =
              passed g.root (m e.key.path) e := by
          intro e he
          have hne : e.key.path ≠ d.key.path := honce e.note (mem_map_of_mem he)
          rw [update_of_ne hne]
          simp only [passed, hfirst.visible]
        show (g.gencallback d).2 ++ ((g.gencallback d).1.dispatch ds).2 = _
        rw [htold, filterMap_congr hsame, gencallback_told g hg hdplain hnew, filterMap_cons]
        cases passed g.root (m d.key.path) d <;> rfl

theorem baseSet_heard (g : UniTransactionGen) (hg : Coherent g.root g.base.content)
    (key : UniConfKey) (value : WvString) :
    (g.baseSet key value).1.base = (g.base.set key value).1 ∧
      Heard ⟨g.root, (g.base.set key value).1⟩ g.base.content (g.base.set key value).1.content
        (g.baseSet key value) ∧ (g.baseSet key value).2 =
        (g.base.set key value).2.filterMap fun d => passed g.root (g.base.content d.key.path) d := by
  have hplain : ∀ d ∈ (g.base.set key value).2, d.key.Plain :=
    fun d hd => (UniTempGen.mem_set hd).1
  obtain ⟨hheard, htold⟩ := dispatch_heard hplain ⟨g.root, (g.base.set key value).1⟩ hg
    (g.base.steps_set key value)
  exact ⟨hheard.base, hheard, htold⟩

end UniTransactionGen

end WvStreams
