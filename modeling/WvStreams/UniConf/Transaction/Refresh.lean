import WvStreams.UniConf.Transaction.Notify

/-!
# `UniTransactionGen::refresh`

`cancel_changes` announces the difference between what was seen and what the base holds.
Every announcement carries the base's value (`Restores.sound`), and every path at which the
two differ is announced (`restores_cancelKids`), so in whatever order they come a listener
ends with the base's content (`refresh_exact`).
-/

namespace WvStreams

open Lib UniConfKey UniConfTree List Lib.Tree

namespace UniTransactionGen

/-- What `cancel_values` announces for the node itself, and for the children of the
replacement that the base does not have. -/
def cancelNode (base : UniTempGen) (newcontents : Option UniConfValueTree)
    (section_ : UniConfKey) : List Delta :=
  let value := base.get section_
  (if newcontents.isNone || newcontents.map val ≠ value then [⟨section_, value⟩] else []) ++
    (newcontents.elim [] fun newcontents => newcontents.kids.toList.flatMap fun c =>
      let subkey := UniConfKey.concat section_ [c.1]
      if base.exists_ subkey then [] else visitDeleted c.2 subkey)

/-- `cancel_values`, for as many levels of keys as the base has. -/
def cancelValues (base : UniTempGen) :
    Nat → Option UniConfValueTree → UniConfKey → List Delta
  | 0, newcontents, section_ => cancelNode base newcontents section_
  | levels + 1, newcontents, section_ =>
    cancelNode base newcontents section_ ++ (base.iterator section_).flatMap fun c =>
        cancelValues base levels
          (newcontents.bind fun newcontents => UniConfTree.findchild newcontents c.1)
          (UniConfKey.concat section_ [c.1])

/-- `cancel_changes` for a `NEWTREE`. -/
def cancelTree (base : UniTempGen) (newtree : Option UniConfValueTree) (section_ : UniConfKey) :
    List Delta :=
  if base.exists_ section_ then cancelValues base (baseHeight base) newtree section_
  else newtree.elim [] fun newtree => visitDeleted newtree section_

/-- What `cancel_changes` announces of another node before its children. -/
def cancelBefore (base : UniTempGen) (mode : Change) (section_ : UniConfKey) : List Delta :=
  match mode with
  | .newValue newvalue =>
    let value := base.get section_
    if value ≠ none ∧ value ≠ some newvalue then [⟨section_, value⟩] else []
  | _ => []

/-- What `cancel_changes` announces of another node after its children. -/
def cancelAfter (base : UniTempGen) (mode : Change) (section_ : UniConfKey) : List Delta :=
  if mode ≠ .blank ∧ base.get section_ = none then [⟨section_, none⟩] else []

/-- `cancel_changes` for each child of a node; a `NEWTREE` has no children. -/
def cancelKids (base : UniTempGen) (section_ : UniConfKey) : Forest Segment Change → List Delta
  | .nil => []
  | .cons name mode sub rest =>
    let key := UniConfKey.concat section_ [name]
    (match mode with
      | .newTree newtree => cancelTree base newtree key
      | _ => cancelBefore base mode key ++ cancelKids base key sub ++ cancelAfter base mode key) ++
      cancelKids base section_ rest

def cancelChanges (base : UniTempGen) (node : UniConfChangeTree) (section_ : UniConfKey) :
    List Delta :=
  match node.val with
  | .newTree newtree => cancelTree base newtree section_
  | mode =>
    cancelBefore base mode section_ ++ cancelKids base section_ node.kids ++
      cancelAfter base mode section_

/-- `refresh`. That of a `UniTempGen` does nothing. -/
def refresh (g : UniTransactionGen) : UniTransactionGen × List Delta :=
  match g.root with
  | none => (g, [])
  | some root => (⟨none, g.base⟩, cancelChanges g.base root [])

/-- The announcements carry the values of `c`, and speak of every path at or below `k` for
which `differs` holds. -/
structure Restores (c : PathMap Segment Str) (k : List Segment) (differs : List Segment → Prop)
    (ds : List Delta) : Prop where
  sound : ∀ d ∈ ds, d.value = c d.key.path
  complete : ∀ q, differs q → ∃ d ∈ ds, d.key.path = k ++ q

theorem Restores.mirror {c m : PathMap Segment Str} (hc : c.Closed) {ds : List Delta}
    (h : Restores c [] (fun q => m q ≠ c q) ds) : PathMap.mirror m (ds.map Delta.note) = c := by
  funext p
  apply PathMap.mirror_eq_of_touched
  · intro n hn ht
    obtain ⟨d, hd, rfl⟩ := mem_map.mp hn
    have hv : d.value = c d.key.path := h.sound d hd
    rcases ht with rfl | ⟨hnone, q, hq⟩
    · exact hv
    · have hq' : d.key.path ++ q = p := hq
      have hnone' : d.value = none := hnone
      show d.value = c p
      rw [hnone', ← hq', hc _ q (hv.symm.trans hnone')]
  · by_cases hp : m p = c p
    · exact .inl hp
    · obtain ⟨d, hd, hk⟩ := h.complete p hp
      exact .inr ⟨d.note, mem_map_of_mem hd, .inl hk.symm⟩

variable {key : UniConfKey} {base : UniTempGen}

theorem restores_visitDeleted {newtree : UniConfValueTree} (hproper : Proper newtree)
    (hnone : base.content key.path = none) :
    Restores base.content key.path (fun q => newtree.content q ≠ none)
      (visitDeleted newtree key) := by
  constructor
  · intro d hd
    obtain ⟨hv, q, hq⟩ := (removes_visitDeleted newtree key).all d hd
    rw [hv, ← hq, base.content_closed _ q hnone]
  · intro q hq
    have hmem := (mem_postorder hproper [] q).mpr ⟨q, rfl, hq⟩
    obtain ⟨k, hk, rfl⟩ := mem_map.mp hmem
    refine ⟨⟨concat key k, none⟩, mem_map_of_mem hk, ?_⟩
    have hplain := hproper.plain_of_mem_postorder plain_nil hk
    rw [path_concatKey, hplain.path_eq]

theorem Restores.append {c : PathMap Segment Str} {k : List Segment}
    {differs : List Segment → Prop} (differs₁ differs₂ : List Segment → Prop)
    {ds₁ ds₂ : List Delta} (h₁ : Restores c k differs₁ ds₁) (h₂ : Restores c k differs₂ ds₂)
    (h : ∀ q, differs q → differs₁ q ∨ differs₂ q) : Restores c k differs (ds₁ ++ ds₂) := by
  constructor
  · exact forall_mem_append.mpr ⟨h₁.sound, h₂.sound⟩
  · intro q hq
    rcases h q hq with hq | hq
    · obtain ⟨d, hd, hk⟩ := h₁.complete q hq
      exact ⟨d, mem_append_left _ hd, hk⟩
    · obtain ⟨d, hd, hk⟩ := h₂.complete q hq
      exact ⟨d, mem_append_right _ hd, hk⟩

theorem restores_single {value : WvString} {told : Prop} [Decidable told]
    (hvalue : told → value = base.content key.path) {differs : List Segment → Prop}
    (hdiffers : ∀ q, differs q → q = [] ∧ told) :
    Restores base.content key.path differs (if told then [⟨key, value⟩] else []) := by
  constructor
  · intro d hd
    split at hd
    · rename_i h
      obtain rfl := mem_singleton.mp hd
      exact hvalue h
    · cases hd
  · intro q hq
    obtain ⟨rfl, h⟩ := hdiffers q hq
    rw [if_pos h, append_nil]
    exact ⟨_, mem_singleton_self _, rfl⟩

theorem restores_cancelNode (base : UniTempGen) {newcontents : Option UniConfValueTree}
    (hproper : ∀ t ∈ newcontents, Proper t) (hkey : key.Plain) :
    Restores base.content key.path (fun q => contents newcontents q ≠ base.content (key.path ++ q) ∧
        ∀ s q', q = s :: q' → base.content (key.path ++ [s]) = none)
      (cancelNode base newcontents key) := by
  have hget := base.get_of_plain hkey
  apply Restores.append
    (fun q => q = [] ∧ contents newcontents [] ≠ base.content key.path)
    (fun q => ∃ s q', q = s :: q' ∧ contents newcontents q ≠ none ∧
      base.content (key.path ++ [s]) = none)
  · apply restores_single
    · exact fun _ => hget
    · rintro q ⟨hq, hne⟩
      refine ⟨hq, ?_⟩
      rw [hget]
      cases newcontents with
      | none => simp
      | some newcontents => simpa using hne
  · cases newcontents with
    | none =>
      constructor
      · intro d hd
        cases hd
      · rintro q ⟨s, q', -, hne, -⟩
        exact absurd rfl hne
    | some newcontents =>
      have hchild : ∀ c ∈ newcontents.kids.toList, c.1 ≠ [] ∧ Proper c.2 ∧
          concat key [c.1] = key ++ [c.1] ∧ Plain (key ++ [c.1]) ∧
          path (key ++ [c.1]) = key.path ++ [fold c.1] := by
        intro c hc
        obtain ⟨hname, hsub⟩ := Forest.Proper.ok_of_mem (hproper newcontents rfl) hc
        exact ⟨hname, hsub, concat_name hkey hname, hkey.concat hname, path_concat key hname rfl⟩
      constructor
      · intro d hd
        obtain ⟨c, hc, hd⟩ := mem_flatMap.mp hd
        obtain ⟨hname, hsub, hconcat, hplain, hpath⟩ := hchild c hc
        simp only [hconcat, UniTempGen.exists_, base.get_of_plain hplain] at hd
        split at hd
        · cases hd
        · rename_i hnone
          exact (restores_visitDeleted hsub (by simpa using hnone)).sound d hd
      · rintro q ⟨s, q', rfl, hne, hnone⟩
        rw [contents_some, content_cons] at hne
        cases hl : newcontents.kids.lookup s with
        | none =>
          rw [hl] at hne
          exact absurd rfl hne
        | some child =>
          rw [hl] at hne
          obtain ⟨name, rfl, hm⟩ := Forest.mem_of_lookup hl
          obtain ⟨hname, hsub, hconcat, hplain, hpath⟩ := hchild _ hm
          have hnone' : base.content (path (key ++ [name])) = none := by
            rw [hpath]
            exact hnone
          obtain ⟨d, hd, hk⟩ := (restores_visitDeleted hsub hnone').complete q' hne
          refine ⟨d, mem_flatMap.mpr ⟨(name, child), hm, ?_⟩, ?_⟩
          · simp only [hconcat, UniTempGen.exists_, base.get_of_plain hplain, hnone']
            exact hd
          · rw [hk, hpath, append_assoc, singleton_append]
  · rintro q ⟨hne, hmissing⟩
    cases q with
    | nil =>
      rw [append_nil] at hne
      exact .inl ⟨rfl, hne⟩
    | cons s q =>
      have hnone := hmissing s q rfl
      have hclosed := base.content_closed _ q hnone
      rw [append_assoc, singleton_append] at hclosed
      rw [hclosed] at hne
      exact .inr ⟨s, q, rfl, hne, hnone⟩

theorem restores_cancelValues {levels : Nat} {newcontents : Option UniConfValueTree}
    (hproper : ∀ t ∈ newcontents, Proper t) (hkey : key.Plain)
    (hlevels : ∀ q, base.content (key.path ++ q) ≠ none → q.length ≤ levels) :
    Restores base.content key.path (fun q => contents newcontents q ≠ base.content (key.path ++ q))
      (cancelValues base levels newcontents key) := by
  have hnode := restores_cancelNode base hproper hkey
  induction levels generalizing newcontents key with
  | zero =>
    constructor
    · exact hnode.sound
    · intro q hq
      apply hnode.complete q ⟨hq, ?_⟩
      rintro s q' rfl
      by_contra hsome
      have := hlevels [s] hsome
      simp at this
  | succ levels ih =>
    have hlists := base.lists_iterator key
    have hchild : ∀ c ∈ base.iterator key, Restores base.content (key.path ++ [fold c.1])
        (fun q => contents (newcontents.bind fun t => t.kids.lookup (fold c.1)) q ≠
          base.content (key.path ++ [fold c.1] ++ q))
        (cancelValues base levels
          (newcontents.bind fun newcontents => findchild newcontents c.1)
          (concat key [c.1])) := by
      intro c hc
      have hname := UniTempGen.ne_nil_of_mem_iterator hc
      have hplain : Plain (key ++ [c.1]) := hkey.concat hname
      have hpath : path (key ++ [c.1]) = key.path ++ [fold c.1] :=
        path_concat key hname rfl
      have hfind : (newcontents.bind fun newcontents => findchild newcontents c.1) =
          newcontents.bind fun t => t.kids.lookup (fold c.1) := by
        cases newcontents with
        | none => rfl
        | some newcontents => exact findchild_of_ne hname newcontents
      have hproper' : ∀ t ∈ newcontents.bind (fun t => t.kids.lookup (fold c.1)), Proper t := by
        intro t ht
        obtain ⟨t', ht', hl⟩ := Option.bind_eq_some_iff.mp ht
        exact Forest.Proper.of_lookup (hproper t' ht') hl
      rw [hfind, concat_name hkey hname, ← hpath]
      apply ih hproper' hplain _ (restores_cancelNode base hproper' hplain)
      intro q hq
      rw [hpath, append_assoc, singleton_append] at hq
      have := hlevels (fold c.1 :: q) hq
      simp only [length_cons] at this
      omega
    apply Restores.append _ (fun q => ∃ s q', q = s :: q' ∧ base.content (key.path ++ [s]) ≠ none ∧
      contents newcontents q ≠ base.content (key.path ++ q)) hnode
    · constructor
      · intro d hd
        obtain ⟨c, hc, hd⟩ := mem_flatMap.mp hd
        exact (hchild c hc).sound d hd
      · rintro q ⟨s, q', rfl, hsome, hne⟩
        obtain ⟨v, hv⟩ := Option.ne_none_iff_exists'.mp hsome
        obtain ⟨name, rfl, hm⟩ := (hlists.mem s v).mpr hv
        have hne' : contents (newcontents.bind fun t => t.kids.lookup (fold name)) q' ≠
            base.content (key.path ++ [fold name] ++ q') := by
          rw [append_assoc, singleton_append]
          cases newcontents with
          | none => exact hne
          | some newcontents =>
            rw [contents_some, content_cons] at hne
            exact hne
        obtain ⟨d, hd, hk⟩ := (hchild _ hm).complete q' hne'
        refine ⟨d, mem_flatMap.mpr ⟨_, hm, hd⟩, ?_⟩
        rw [hk, append_assoc, singleton_append]
    · intro q hq
      by_cases hmissing : ∀ s q', q = s :: q' → base.content (key.path ++ [s]) = none
      · exact .inl ⟨hq, hmissing⟩
      · simp only [not_forall] at hmissing
        obtain ⟨s, q', he, hsome⟩ := hmissing
        exact .inr ⟨s, q', he, hsome, hq⟩

theorem length_le_baseHeight (base : UniTempGen) {p : List Segment}
    (h : base.content p ≠ none) : p.length ≤ baseHeight base := by
  unfold UniTempGen.content at h
  unfold baseHeight
  cases hroot : base.root with
  | none =>
    rw [hroot] at h
    exact absurd rfl h
  | some root =>
    rw [hroot] at h
    exact Lib.Tree.length_le_height h

theorem restores_cancelTree (base : UniTempGen) {newtree : Option UniConfValueTree}
    (hproper : ∀ t ∈ newtree, Proper t) (hkey : key.Plain) :
    Restores base.content key.path (fun q => contents newtree q ≠ base.content (key.path ++ q))
      (cancelTree base newtree key) := by
  unfold cancelTree
  rw [UniTempGen.exists_, base.get_of_plain hkey]
  split
  · apply restores_cancelValues hproper hkey
    intro q hq
    have := length_le_baseHeight base hq
    rw [length_append] at this
    omega
  · rename_i hexists
    have hnone : base.content key.path = none := by simpa using hexists
    cases newtree with
    | none =>
      constructor
      · intro d hd
        cases hd
      · intro q hq
        exact absurd (base.content_closed _ q hnone).symm hq
    | some newtree =>
      have h := restores_visitDeleted (hproper newtree rfl) hnone
      constructor
      · exact h.sound
      · intro q hq
        apply h.complete q
        rwa [base.content_closed _ q hnone] at hq

theorem restores_through (mode : Change) {kids : Forest Segment Change} (hmode : mode.Through)
    (hkey : key.Plain) {ds : List Delta} (hkids : Restores base.content key.path
      (fun q => ∃ s q', q = s :: q' ∧
        visible (kids.lookup s) q' (base.content (key.path ++ q)) ≠ base.content (key.path ++ q))
      ds) :
    Restores base.content key.path
      (fun q => visible (some ⟨mode, kids⟩) q (base.content (key.path ++ q)) ≠
        base.content (key.path ++ q))
      (cancelBefore base mode key ++ ds ++ cancelAfter base mode key) := by
  have hget := base.get_of_plain hkey
  have hbefore : Restores base.content key.path (fun q => q = [] ∧ base.content key.path ≠ none ∧
      visible (some ⟨mode, kids⟩) [] (base.content key.path) ≠ base.content key.path)
      (cancelBefore base mode key) := by
    cases mode with
    | newTree newtree => exact absurd hmode id
    | newValue newvalue =>
      apply restores_single
      · exact fun _ => hget
      · rintro q ⟨hq, hsome, hne⟩
        refine ⟨hq, ?_⟩
        rw [hget]
        exact ⟨hsome, Ne.symm hne⟩
    | newNode flag =>
      constructor
      · nofun
      · rintro q ⟨-, hsome, hne⟩
        obtain ⟨v, hv⟩ := Option.ne_none_iff_exists'.mp hsome
        rw [hv] at hne
        exact absurd rfl hne
    | blank =>
      constructor
      · nofun
      · rintro q ⟨-, -, hne⟩
        exact absurd rfl hne
  have hafter : Restores base.content key.path (fun q => q = [] ∧ base.content key.path = none ∧
      visible (some ⟨mode, kids⟩) [] (base.content key.path) ≠ base.content key.path)
      (cancelAfter base mode key) := by
    apply restores_single
    · rintro ⟨-, h⟩
      rw [← hget, h]
    · rintro q ⟨hq, hnone, hne⟩
      refine ⟨hq, ?_, by rw [hget, hnone]⟩
      rintro rfl
      exact hne rfl
  apply Restores.append _ _ (Restores.append _ _ hbefore hkids (fun q hq => hq)) hafter
  intro q hq
  cases q with
  | nil =>
    rw [append_nil] at hq
    by_cases hnone : base.content key.path = none
    · exact .inr ⟨rfl, hnone, hq⟩
    · exact .inl (.inl ⟨rfl, hnone, hq⟩)
  | cons s q =>
    have hthrough : Change.Through (val (⟨mode, kids⟩ : UniConfChangeTree)) := hmode
    rw [visible_cons hthrough] at hq
    exact .inl (.inr ⟨s, q, rfl, hq⟩)

theorem restores_cancelKids (base : UniTempGen) {f : Forest Segment Change}
    (hf : f.Proper (· ≠ [])) {m : Segment → PathMap Segment Str}
    (hnodes : ∀ s, Coherent (f.lookup s) (m s)) (hkey : key.Plain) :
    Restores base.content key.path (fun q => ∃ s q', q = s :: q' ∧
        visible (f.lookup s) q' (base.content (key.path ++ q)) ≠ base.content (key.path ++ q))
      (cancelKids base key f) := by
  induction f generalizing m key with
  | nil =>
    constructor
    · nofun
    · rintro q ⟨s, q', rfl, hne⟩
      exact absurd (UniTransactionGen.visible_none _ _) hne
  | cons name mode sub rest ihs ihr =>
    obtain ⟨hname, hnew, hsub, hrest⟩ := hf
    have hplain : Plain (key ++ [name]) := hkey.concat hname
    have hpath : path (key ++ [name]) = key.path ++ [fold name] :=
      path_concat key hname rfl
    have hself := Forest.lookup_cons_self name mode sub rest
    have hnode : Coherent (some ⟨mode, sub⟩) (m (fold name)) := hself ▸ hnodes (fold name)
    have hchild : Restores base.content (path (key ++ [name]))
        (fun q => visible (some ⟨mode, sub⟩) q
            (base.content (path (key ++ [name]) ++ q)) ≠
          base.content (path (key ++ [name]) ++ q))
        (cancelChanges base ⟨mode, sub⟩ (key ++ [name])) := by
      have hkids := ihs hsub (fun s => hnode.child s) hplain
      cases mode with
      | newTree newtree =>
        have h := restores_cancelTree base (everywhere_some.mp hnode.nodes).1.2 hplain
        simp only [visible_newTree]
        exact h
      | newValue newvalue => exact restores_through (.newValue newvalue) trivial hplain hkids
      | newNode flag => exact restores_through (.newNode flag) trivial hplain hkids
      | blank => exact restores_through .blank trivial hplain hkids
    have hstep : cancelKids base key (.cons name mode sub rest) =
        cancelChanges base ⟨mode, sub⟩ (key ++ [name]) ++ cancelKids base key rest := by
      cases mode <;> simp only [cancelKids, cancelChanges, concat_name hkey hname]
    rw [hpath] at hchild
    rw [hstep]
    apply Restores.append
      (fun q => ∃ q', q = fold name :: q' ∧
        visible (some ⟨mode, sub⟩) q' (base.content (key.path ++ q)) ≠
          base.content (key.path ++ q)) _ _ (ihr hrest (Coherent.rest hnew hnodes) hkey)
    · rintro q ⟨s, q', rfl, hne⟩
      by_cases hs : s = fold name
      · subst hs
        rw [hself] at hne
        exact .inl ⟨q', rfl, hne⟩
      · rw [Forest.lookup_cons_of_ne hs] at hne
        exact .inr ⟨s, q', rfl, hne⟩
    · constructor
      · exact hchild.sound
      · rintro q ⟨q', rfl, hne⟩
        obtain ⟨d, hd, hk⟩ := hchild.complete q' (by simpa using hne)
        exact ⟨d, hd, by rw [hk, append_assoc, singleton_append]⟩

theorem restores_cancelChanges (base : UniTempGen) {node : UniConfChangeTree}
    {m : PathMap Segment Str} (hnode : Coherent (some node) m) :
    Restores base.content [] (fun q => visible (some node) q (base.content q) ≠ base.content q)
      (cancelChanges base node []) := by
  have hkids := restores_cancelKids base (hnode.proper node rfl)
    (fun s => hnode.child s) plain_nil
  have hok := (everywhere_some.mp hnode.nodes).1
  obtain ⟨mode, kids⟩ := node
  cases mode with
  | newTree newtree =>
    have h := restores_cancelTree base hok.2 plain_nil
    simp only [visible_newTree]
    exact h
  | newValue newvalue => exact restores_through (.newValue newvalue) trivial plain_nil hkids
  | newNode flag => exact restores_through (.newNode flag) trivial plain_nil hkids
  | blank => exact restores_through .blank trivial plain_nil hkids

/-- `refresh` rolls back: nothing is pending, everything reads as the base, and a listener who
had the view comes to have the base's content. -/
theorem refresh_exact (base : UniTempGen) (os : List Op) :
    let g := (run (create base, (create base).view) os).1
    let after := g.refresh.1
    after.root = none ∧ after.base = g.base ∧
      (∀ key, after.get key = g.base.get key ∧ after.iterator key = g.base.iterator key) ∧
      PathMap.mirror g.view (g.refresh.2.map Delta.note) = g.base.content := by
  intro g after
  have hg : Coherent g.root g.base.content :=
    (run_spec (g := create base) (coherent_none _) os).1
  have hafter : after = ⟨none, g.base⟩ := by
    show g.refresh.1 = ⟨none, g.base⟩
    unfold refresh
    cases hroot : g.root with
    | none =>
      show g = ⟨none, g.base⟩
      rw [← hroot]
    | some root => rfl
  refine ⟨by rw [hafter], by rw [hafter], ?_, ?_⟩
  · intro key
    rw [hafter]
    cases key with
    | nil | cons s key => exact ⟨rfl, rfl⟩
  · unfold refresh
    cases hroot : g.root with
    | none =>
      rw [view, hroot, overlay_none]
      rfl
    | some root =>
      have hnode : Coherent (some root) g.base.content := hroot ▸ hg
      have h := restores_cancelChanges g.base hnode
      apply Restores.mirror g.base.content_closed
      rw [view, hroot]
      exact h

end UniTransactionGen

end WvStreams
