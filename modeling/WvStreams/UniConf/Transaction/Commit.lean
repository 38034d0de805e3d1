import WvStreams.UniConf.Transaction.View

/-!
# `UniTransactionGen::commit`

`apply_changes` walks the tree of changes and sets in the base what the tree says. At each
node it turns what the base has there into what was seen there (`rewrites_applyKids`), so
that in the end the base holds the view (`commit_spec`). The callbacks of all these sets
keep a listener's mirror equal to what is seen (`Progress`).
-/

namespace WvStreams

open Lib UniConfKey PathMap UniTempGen List Function UniConfTree Lib.Tree

namespace UniTransactionGen

abbrev Holding := UniTransactionGen × List Delta

namespace Holding

def baseSet (h : Holding) (key : UniConfKey) (value : WvString) : Holding :=
  let (g, ds) := h.1.baseSet key value
  (g, h.2 ++ ds)

def deleteAbsent (newcontents : UniConfValueTree) (section_ : UniConfKey) :
    List (Segment × Str) → Holding → Holding
  | [], h => h
  | c :: cs, h =>
    deleteAbsent newcontents section_ cs
      (if (findchild newcontents c.1).isNone then
        h.baseSet (UniConfKey.concat section_ [c.1]) none
      else h)

def applyNode (newcontents : UniConfValueTree) (section_ : UniConfKey) (h : Holding) : Holding :=
  let h := h.baseSet section_ (some newcontents.val)
  deleteAbsent newcontents section_ (h.1.base.iterator section_) h

def applyValuesKids (section_ : UniConfKey) : Forest Segment Str → Holding → Holding
  | .nil, h => h
  | .cons name val sub rest, h =>
    let key := UniConfKey.concat section_ [name]
    applyValuesKids section_ rest (applyValuesKids key sub (applyNode ⟨val, sub⟩ key h))

def applyValues (newcontents : UniConfValueTree) (section_ : UniConfKey) (h : Holding) : Holding :=
  applyValuesKids section_ newcontents.kids (applyNode newcontents section_ h)

def applyMode (mode : Change) (section_ : UniConfKey) (h : Holding) : Holding :=
  match mode with
  | .newTree none => h.baseSet section_ none
  | .newTree (some newtree) => applyValues newtree section_ h
  | .newValue newvalue => h.baseSet section_ (some newvalue)
  | .newNode _ => if h.1.base.exists_ section_ then h else h.baseSet section_ (some [])
  | .blank => h

/-- `apply_changes` for each child of a node; a `NEWTREE` has no children. -/
def applyKids (section_ : UniConfKey) : Forest Segment Change → Holding → Holding
  | .nil, h => h
  | .cons name mode sub rest, h =>
    let key := UniConfKey.concat section_ [name]
    let h := applyMode mode key h
    applyKids section_ rest
      (match mode with
        | .newTree _ => h
        | _ => applyKids key sub h)

def applyChanges (node : UniConfChangeTree) (section_ : UniConfKey) (h : Holding) : Holding :=
  let h := applyMode node.val section_ h
  match node.val with
  | .newTree _ => h
  | _ => applyKids section_ node.kids h

end Holding

/-- `commit`. That of a `UniTempGen` does nothing. -/
def commit (g : UniTransactionGen) : UniTransactionGen × List Delta :=
  match g.root with
  | none => (g, [])
  | some root =>
    let (g, ds) := Holding.applyChanges root [] (g, [])
    (⟨none, g.base⟩, ds)

/-! ## While changes are applied -/

/-- Between the sets of a commit: the changes still make the same of a base, their flags fit,
and the announcements so far tell what is seen by now. -/
structure Progress (g : UniTransactionGen) (h : Holding) : Prop where
  visible : ∀ p b, visible h.1.root p b = visible g.root p b
  coherent : Coherent h.1.root h.1.base.content
  mirror : PathMap.mirror g.view (h.2.map Delta.note) = overlay g.root h.1.base.content

variable {g : UniTransactionGen} {h : Holding} {key : UniConfKey} {m m' : PathMap Segment Str}
  {node : UniConfChangeTree}

theorem Progress.baseSet (hp : Progress g h) (key : UniConfKey) (value : WvString) :
    Progress g (h.baseSet key value) := by
  obtain ⟨hbase, hheard, -⟩ := baseSet_heard h.1 hp.coherent key value
  have hover : ∀ m, overlay h.1.root m = overlay g.root m := by
    intro m
    funext p
    exact hp.visible p (m p)
  constructor
  · intro p b
    exact (hheard.visible p b).trans (hp.visible p b)
  · have hcoherent := hheard.coherent
    rw [← hbase] at hcoherent
    exact hcoherent
  · have hmirror := hheard.mirror
    rw [hover, hover, ← hp.mirror, ← mirror_append, ← map_append, ← hbase] at hmirror
    exact hmirror

def Holding.content (h : Holding) : PathMap Segment Str := h.1.base.content

theorem Progress.content_baseSet (hp : Progress g h) (hkey : key.Plain) (value : WvString) :
    (h.baseSet key value).content = assign [] h.content key.path value := by
  obtain ⟨hbase, -⟩ := baseSet_heard h.1 hp.coherent key value
  have hset := h.1.base.content_set key value
  rw [refSet_plain _ hkey, ← hbase] at hset
  exact hset

/-! ## Replacement trees -/

/-- The path lies at or below a listed child that the replacement does not have. -/
def Absent (newcontents : UniConfValueTree) (key : List Segment) (cs : List (Segment × Str))
    (p : List Segment) : Prop :=
  ∃ c ∈ cs, findchild newcontents c.1 = none ∧ key ++ [fold c.1] <+: p

theorem content_deleteAbsent (newcontents : UniConfValueTree) (hkey : key.Plain)
    {cs : List (Segment × Str)} (hcs : ∀ c ∈ cs, c.1 ≠ []) (hp : Progress g h) :
    Progress g (h.deleteAbsent newcontents key cs) ∧ (∀ p, Absent newcontents key.path cs p →
        (h.deleteAbsent newcontents key cs).content p = none) ∧
      ∀ p, ¬ Absent newcontents key.path cs p →
        (h.deleteAbsent newcontents key cs).content p = h.content p := by
  induction cs generalizing h with
  | nil =>
    refine ⟨hp, ?_, fun _ _ => rfl⟩
    rintro p ⟨c, hc, -⟩
    cases hc
  | cons c cs ih =>
    have hc : c.1 ≠ [] := hcs c mem_cons_self
    have hcs' : ∀ c ∈ cs, c.1 ≠ [] := fun c hc => hcs c (mem_cons_of_mem _ hc)
    by_cases habs : findchild newcontents c.1 = none
    · have hplain : Plain (key ++ [c.1]) := hkey.concat hc
      have hset := hp.content_baseSet hplain none
      rw [assign_none, path_concat key hc rfl] at hset
      have hstep : h.deleteAbsent newcontents key (c :: cs) =
          (h.baseSet (key ++ [c.1]) none).deleteAbsent newcontents key cs := by
        simp only [Holding.deleteAbsent, habs, Option.isNone_none, if_true, concat_name hkey hc]
      obtain ⟨hp', hgone, hstay⟩ := ih hcs' (hp.baseSet (key ++ [c.1]) none)
      rw [hstep]
      refine ⟨hp', ?_, ?_⟩
      · intro p hp
        by_cases hlater : Absent newcontents key.path cs p
        · exact hgone p hlater
        · rw [hstay p hlater, hset, prune]
          obtain ⟨d, hd, habs', hpre⟩ := hp
          rcases mem_cons.mp hd with rfl | hd
          · exact if_pos hpre
          · exact absurd ⟨d, hd, habs', hpre⟩ hlater
      · intro p hp
        have hlater : ¬ Absent newcontents key.path cs p := by
          rintro ⟨d, hd, hrest⟩
          exact hp ⟨d, mem_cons_of_mem _ hd, hrest⟩
        rw [hstay p hlater, hset, prune]
        apply if_neg
        exact fun hpre => hp ⟨c, mem_cons_self, habs, hpre⟩
    · have hstep : h.deleteAbsent newcontents key (c :: cs) = h.deleteAbsent newcontents key cs := by
        have hsome : ¬ (findchild newcontents c.1).isNone = true := by
          simpa using habs
        simp only [Holding.deleteAbsent, if_neg hsome]
      have hsame : ∀ p, Absent newcontents key.path (c :: cs) p ↔
          Absent newcontents key.path cs p := by
        intro p
        simp [Absent, habs]
      simp only [hstep, hsame]
      exact ih hcs' hp

/-- All ancestors of `k` have values. -/
def Rooted (m : PathMap Segment Str) (k : List Segment) : Prop :=
  ∀ p, p <+: k → p ≠ k → m p ≠ none

theorem rooted_concat {m : PathMap Segment Str} {k : List Segment}
    (h : ∀ p, p <+: k → m p ≠ none) (s : Segment) : Rooted m (k ++ [s]) := by
  intro p hpre hne
  rcases prefix_concat_iff.mp hpre with he | hpre
  · exact absurd he hne
  · exact h p hpre

theorem content_applyNode (newcontents : UniConfValueTree) (hkey : key.Plain) (hp : Progress g h)
    (hrooted : Rooted h.content key.path) :
    Progress g (h.applyNode newcontents key) ∧
      (∀ p, ¬ key.path <+: p → (h.applyNode newcontents key).content p = h.content p) ∧
      (h.applyNode newcontents key).content key.path = some newcontents.val ∧
      ∀ s q, (h.applyNode newcontents key).content (key.path ++ s :: q) =
        if newcontents.kids.lookup s = none then none else h.content (key.path ++ s :: q) := by
  have hset := hp.content_baseSet hkey (some newcontents.val)
  rw [assign_of_ancestors [] hrooted] at hset
  have hfirst := hp.baseSet key (some newcontents.val)
  have hunfold : h.applyNode newcontents key =
      (h.baseSet key (some newcontents.val)).deleteAbsent newcontents key
        ((h.baseSet key (some newcontents.val)).1.base.iterator key) := rfl
  rw [hunfold]
  generalize h.baseSet key (some newcontents.val) = h1 at hset hfirst
  have hnames : ∀ c ∈ h1.1.base.iterator key, c.1 ≠ [] :=
    fun c hc => ne_nil_of_mem_iterator hc
  have hlists := h1.1.base.lists_iterator key
  obtain ⟨hp', hgone, hstay⟩ := content_deleteAbsent newcontents hkey hnames hfirst
  refine ⟨hp', ?_, ?_, ?_⟩
  · intro p hout
    have hne : p ≠ key.path := fun e => hout (e ▸ prefix_refl _)
    rw [hstay p, hset, update_of_ne hne]
    rintro ⟨c, -, -, hpre⟩
    exact hout ((prefix_append _ _).trans hpre)
  · rw [hstay key.path, hset, update_self]
    rintro ⟨c, -, -, hpre⟩
    have := hpre.length_le
    simp only [length_append, length_singleton] at this
    omega
  · intro s q
    have hne : key.path ++ s :: q ≠ key.path := by simp
    have hsame : h1.content (key.path ++ s :: q) = h.content (key.path ++ s :: q) := by
      rw [hset, update_of_ne hne]
    by_cases hl : newcontents.kids.lookup s = none
    · rw [if_pos hl]
      by_cases habs : Absent newcontents key.path (h1.1.base.iterator key) (key.path ++ s :: q)
      · exact hgone _ habs
      · -- a child of that name would have been listed
        rw [hstay _ habs]
        have hclosed := h1.1.base.content_closed (key.path ++ [s]) q
        rw [append_assoc, singleton_append] at hclosed
        apply hclosed
        by_contra hsome
        obtain ⟨v, hv⟩ := Option.ne_none_iff_exists'.mp hsome
        obtain ⟨name, rfl, hm⟩ := (hlists.mem s v).mpr hv
        apply habs
        refine ⟨(name, v), hm, ?_, by simp⟩
        rw [findchild_of_ne (hnames _ hm)]
        exact hl
    · rw [if_neg hl, hstay, hsame]
      rintro ⟨c, hc, habs, hpre⟩
      have hs : fold c.1 = s := by simpa using hpre
      rw [findchild_of_ne (hnames c hc), hs] at habs
      exact hl habs

/-- The values at and below `key` are changed by `F`, the others not. -/
structure At (key : List Segment) (F : List Segment → WvString → WvString)
    (m m' : PathMap Segment Str) : Prop where
  outside : ∀ p, ¬ key <+: p → m' p = m p
  inside : ∀ q, m' (key ++ q) = F q (m (key ++ q))

/-- The values below `key` are changed by `F`, the others not. -/
structure Below (key : List Segment) (F : Segment → List Segment → WvString → WvString)
    (m m' : PathMap Segment Str) : Prop where
  outside : ∀ p, (∀ s q, p ≠ key ++ s :: q) → m' p = m p
  inside : ∀ s q, m' (key ++ s :: q) = F s q (m (key ++ s :: q))

theorem Below.cons {key : List Segment} {t : Segment}
    {F F' : Segment → List Segment → WvString → WvString} {m m₁ m' : PathMap Segment Str}
    (hchild : At (key ++ [t]) (F t) m m₁) (hrest : Below key F' m₁ m')
    (ht : ∀ q b, F' t q b = b) (hF : ∀ s, s ≠ t → F' s = F s) : Below key F m m' := by
  constructor
  · intro p hp
    rw [hrest.outside p hp]
    apply hchild.outside
    rintro ⟨q, rfl⟩
    exact hp t q (by simp)
  · intro s q
    rw [hrest.inside]
    by_cases hs : s = t
    · subst hs
      have h := hchild.inside q
      rw [append_assoc, singleton_append] at h
      rw [ht, h]
    · have hnot : ¬ key ++ [t] <+: key ++ s :: q := by
        intro hpre
        have h : t = s := by simpa using hpre
        exact hs h.symm
      rw [hF s hs, hchild.outside _ hnot]

theorem At.of_below {key : List Segment} {F : List Segment → WvString → WvString}
    {G : Segment → List Segment → WvString → WvString} {m₁ : PathMap Segment Str}
    (hout : ∀ p, ¬ key <+: p → m₁ p = m p) (hself : m₁ key = F [] (m key))
    (hbelow : Below key G m₁ m')
    (hG : ∀ s q, G s q (m₁ (key ++ s :: q)) = F (s :: q) (m (key ++ s :: q))) : At key F m m' := by
  constructor
  · intro p hp
    rw [hbelow.outside, hout p hp]
    rintro s q rfl
    exact hp (prefix_append _ _)
  · intro q
    cases q with
    | nil =>
      rw [append_nil, hbelow.outside, hself]
      intro s q he
      simp at he
    | cons s q => rw [hbelow.inside, hG]

theorem At.above {key : List Segment} {t : Segment} {F : List Segment → WvString → WvString}
    (h : At (key ++ [t]) F m m') (hm : ∀ p, p <+: key → m p ≠ none) :
    ∀ p, p <+: key → m' p ≠ none := by
  intro p hpre
  rw [h.outside p]
  · exact hm p hpre
  · intro hpre'
    have hlen := (hpre'.trans hpre).length_le
    rw [length_append, length_singleton] at hlen
    omega

theorem kept_above {key : List Segment} {v : Str} (hout : ∀ p, ¬ key <+: p → m' p = m p)
    (hself : m' key = some v) (hm : Rooted m key) : ∀ p, p <+: key → m' p ≠ none := by
  intro p hpre
  by_cases he : p = key
  · rw [he, hself]
    exact Option.some_ne_none v
  · rw [hout p]
    · exact hm p hpre he
    · intro hpre'
      exact he (hpre.eq_of_length_le hpre'.length_le)

/-- What the children of a replacement make of the values below their node. -/
def replaced (f : Forest Segment Str) (s : Segment) (q : List Segment) (b : WvString) : WvString :=
  (f.lookup s).elim b fun t => t.content q

theorem below_applyValuesKids {f : Forest Segment Str} (hf : f.Proper (· ≠ [])) (hkey : key.Plain)
    (hp : Progress g h) (hrooted : ∀ p, p <+: key.path → h.content p ≠ none) :
    Progress g (h.applyValuesKids key f) ∧
      Below key.path (replaced f) h.content (h.applyValuesKids key f).content := by
  induction f generalizing key h with
  | nil => exact ⟨hp, fun _ _ => rfl, fun _ _ => rfl⟩
  | cons name val sub rest ihs ihr =>
    obtain ⟨hname, hnew, hsub, hrest⟩ := hf
    have hplain : Plain (key ++ [name]) := hkey.concat hname
    have hpath : path (key ++ [name]) = key.path ++ [fold name] :=
      path_concat key hname rfl
    have hrooted' : Rooted h.content (path (key ++ [name])) := hpath ▸ rooted_concat hrooted _
    obtain ⟨hp1, hout1, hself1, hbelow1⟩ :=
      content_applyNode ⟨val, sub⟩ hplain hp hrooted'
    generalize hh1 : h.applyNode ⟨val, sub⟩ (key ++ [name]) = h1 at hp1 hout1 hself1 hbelow1
    obtain ⟨hp2, hbelow2⟩ := ihs hsub hplain hp1 (kept_above hout1 hself1 hrooted')
    have hchild : At (path (key ++ [name])) (replaced (.cons name val sub rest) (fold name))
        h.content (h1.applyValuesKids (key ++ [name]) sub).content := by
      apply At.of_below hout1 _ hbelow2
      · intro s q
        rw [hbelow1]
        simp only [replaced, Forest.lookup, if_true, Option.elim_some, content_cons]
        cases sub.lookup s <;> rfl
      · rw [hself1]
        simp [replaced, Forest.lookup]
    generalize hh2 : h1.applyValuesKids (key ++ [name]) sub = h2 at hp2 hchild
    rw [hpath] at hchild
    obtain ⟨hp3, hbelow3⟩ := ihr hrest hkey hp2 (hchild.above hrooted)
    have hstep : h.applyValuesKids key (.cons name val sub rest) = h2.applyValuesKids key rest := by
      simp only [Holding.applyValuesKids, concat_name hkey hname, hh1, hh2]
    rw [hstep]
    refine ⟨hp3, Below.cons hchild hbelow3 ?_ ?_⟩
    · intro q b
      simp [replaced, hnew]
    · intro s hs
      funext q b
      simp [replaced, Forest.lookup, Ne.symm hs]

theorem at_applyValues {newcontents : UniConfValueTree} (hproper : UniConfTree.Proper newcontents)
    (hkey : key.Plain) (hp : Progress g h) (hrooted : Rooted h.content key.path) :
    Progress g (h.applyValues newcontents key) ∧
      At key.path (fun q _ => newcontents.content q) h.content
        (h.applyValues newcontents key).content := by
  obtain ⟨hp1, hout1, hself1, hbelow1⟩ := content_applyNode newcontents hkey hp hrooted
  obtain ⟨hp2, hbelow2⟩ :=
    below_applyValuesKids hproper hkey hp1 (kept_above hout1 hself1 hrooted)
  refine ⟨hp2, At.of_below hout1 hself1 hbelow2 ?_⟩
  intro s q
  rw [hbelow1]
  simp only [replaced, content_cons]
  cases newcontents.kids.lookup s <;> rfl

/-! ## The tree of changes -/

/-- The ancestors of the key are there, or nothing is to be created at it. -/
def Ready (node : UniConfChangeTree) (m : PathMap Segment Str) (k : List Segment) : Prop :=
  Rooted m k ∨ QuietTree (some node)

theorem Ready.rooted {k : List Segment} (h : Ready node m k) (hmode : ¬ node.val.Quiet) :
    Rooted m k :=
  h.resolve_right fun hquiet => hmode (everywhere_some.mp hquiet).1

theorem content_applyMode (hnode : Coherent (some node) m) (hkey : key.Plain) (hp : Progress g h)
    (hready : Ready node h.content key.path) :
    Progress g (h.applyMode node.val key) ∧ (node.val.Through →
        (h.applyMode node.val key).content = update h.content key.path
          (visible (some node) [] (h.content key.path))) ∧ (¬ node.val.Through →
        At key.path (visible (some node)) h.content (h.applyMode node.val key).content) := by
  have hok := (everywhere_some.mp hnode.nodes).1
  obtain ⟨mode, kids⟩ := node
  cases mode with
  | newValue newvalue =>
    have hrooted := hready.rooted (by simp [Change.Quiet])
    refine ⟨hp.baseSet key _, fun _ => ?_, fun hn => absurd trivial hn⟩
    have hset := hp.content_baseSet hkey (some newvalue)
    rw [assign_of_ancestors [] hrooted] at hset
    exact hset
  | newTree newtree =>
    cases newtree with
    | none =>
      refine ⟨hp.baseSet key _, fun hn => absurd hn id, fun _ => ?_⟩
      have hset := hp.content_baseSet hkey none
      constructor
      · intro p hout
        show (h.baseSet key none).content p = _
        rw [hset, assign_none, prune, if_neg hout]
      · intro q
        show (h.baseSet key none).content _ = _
        rw [hset, assign_none, prune, if_pos (prefix_append _ _), visible_newTree]
        rfl
    | some newtree =>
      have hrooted := hready.rooted (by simp [Change.Quiet])
      obtain ⟨hp', hat⟩ := at_applyValues (hok.2 newtree rfl) hkey hp hrooted
      refine ⟨hp', fun hn => absurd hn id, fun _ => ?_⟩
      constructor
      · exact hat.outside
      · intro q
        rw [visible_newTree]
        exact hat.inside q
  | newNode flag =>
    have hrooted := hready.rooted (by simp [Change.Quiet])
    have hexists : h.1.base.exists_ key = (h.content key.path).isSome := by
      rw [exists_, get_of_plain _ hkey]
      rfl
    simp only [Holding.applyMode, hexists]
    cases hb : h.content key.path with
    | none =>
      refine ⟨hp.baseSet key _, fun _ => ?_, fun hn => absurd trivial hn⟩
      have hset := hp.content_baseSet hkey (some [])
      rw [assign_of_ancestors [] hrooted] at hset
      exact hset
    | some b =>
      refine ⟨hp, fun _ => ?_, fun hn => absurd trivial hn⟩
      have hseen : visible (some ⟨.newNode flag, kids⟩) [] (some b) = h.content key.path := hb.symm
      rw [hseen, update_eq_self]
      rfl
  | blank =>
    refine ⟨hp, fun _ => ?_, fun hn => absurd trivial hn⟩
    have hseen : visible (some ⟨.blank, kids⟩) [] (h.content key.path) = h.content key.path := rfl
    rw [hseen, update_eq_self]
    rfl

/-- The node is there, or nothing is to be created below it. -/
def ReadyKids (f : Forest Segment Change) (m : PathMap Segment Str) (k : List Segment) : Prop :=
  (∀ p, p <+: k → m p ≠ none) ∨ ∀ s, QuietTree (f.lookup s)

theorem readyKids {c : PathMap Segment Str} (hnode : Coherent (some node) m')
    (hn : node.val.Through) {k : List Segment} (hready : Ready node m k)
    (hc : c = update m k (visible (some node) [] (m k))) : ReadyKids node.kids c k := by
  have hok := (everywhere_some.mp hnode.nodes).1
  rcases hready with hrooted | hquiet
  · have hup : visible (some node) [] (m k) ≠ none → ∀ p, p <+: k → c p ≠ none := by
      intro hself p hpre
      rw [hc]
      by_cases he : p = k
      · rw [he, update_self]
        exact hself
      · rw [update_of_ne he]
        exact hrooted p hpre he
    obtain ⟨mode, kids⟩ := node
    cases mode with
    | newTree newtree => exact absurd hn id
    | newValue newvalue | newNode flag => exact Or.inl (hup (by simp [visible]))
    | blank => exact Or.inr hok
  · exact Or.inr (everywhere_some.mp hquiet).2

theorem at_applyChanges (hnode : Coherent (some node) m) (hkey : key.Plain) (hp : Progress g h)
    (hready : Ready node h.content key.path)
    (hkids : ∀ h₁ : Holding, Progress g h₁ → ReadyKids node.kids h₁.content key.path →
      Progress g (h₁.applyKids key node.kids) ∧
        Below key.path (fun s => visible (node.kids.lookup s)) h₁.content
          (h₁.applyKids key node.kids).content) :
    Progress g (h.applyChanges node key) ∧
      At key.path (visible (some node)) h.content (h.applyChanges node key).content := by
  obtain ⟨hp1, hthrough, htree⟩ := content_applyMode hnode hkey hp hready
  by_cases hn : node.val.Through
  · have hstep : h.applyChanges node key = (h.applyMode node.val key).applyKids key node.kids := by
      exact through_cases hn (fun _ _ => rfl) (fun _ _ => rfl) fun _ => rfl
    have hcontent := hthrough hn
    obtain ⟨hp2, hbelow⟩ := hkids _ hp1 (readyKids hnode hn hready hcontent)
    rw [hstep]
    refine ⟨hp2, At.of_below ?_ ?_ hbelow ?_⟩
    · intro p hout
      rw [hcontent, update_of_ne]
      exact fun e => hout (e ▸ prefix_refl _)
    · rw [hcontent, update_self]
    · intro s q
      rw [hcontent, update_of_ne (by simp), visible_cons hn]
  · have hstep : h.applyChanges node key = h.applyMode node.val key := by
      obtain ⟨mode, kids⟩ := node
      cases mode with
      | newTree newtree => rfl
      | newValue newvalue | newNode flag | blank => exact absurd trivial hn
    rw [hstep]
    exact ⟨hp1, htree hn⟩

theorem below_applyKids {f : Forest Segment Change} (hf : f.Proper (· ≠ []))
    {m : Segment → PathMap Segment Str} (hnodes : ∀ s, Coherent (f.lookup s) (m s))
    (hkey : key.Plain) (hp : Progress g h) (hready : ReadyKids f h.content key.path) :
    Progress g (h.applyKids key f) ∧
      Below key.path (fun s => visible (f.lookup s)) h.content (h.applyKids key f).content := by
  induction f generalizing m key h with
  | nil => exact ⟨hp, fun _ _ => rfl, fun s q => (UniTransactionGen.visible_none q _).symm⟩
  | cons name mode sub rest ihs ihr =>
    obtain ⟨hname, hnew, hsub, hrest⟩ := hf
    have hplain : Plain (key ++ [name]) := hkey.concat hname
    have hpath : path (key ++ [name]) = key.path ++ [fold name] :=
      path_concat key hname rfl
    have hself := Forest.lookup_cons_self name mode sub rest
    have hother : ∀ s, s ≠ fold name →
        (Forest.cons name mode sub rest).lookup s = rest.lookup s :=
      fun s hs => Forest.lookup_cons_of_ne hs mode sub rest
    have hnode : Coherent (some ⟨mode, sub⟩) (m (fold name)) := hself ▸ hnodes (fold name)
    have hready1 : Ready ⟨mode, sub⟩ h.content (path (key ++ [name])) := by
      rcases hready with hup | hquiet
      · exact .inl (hpath ▸ rooted_concat hup _)
      · right
        have h := hquiet (fold name)
        rwa [hself] at h
    obtain ⟨hp1, hchild⟩ := at_applyChanges hnode hplain hp hready1
      (fun h₁ hp₁ hready₁ => ihs hsub (fun s => hnode.child s) hplain hp₁ hready₁)
    have hstep : h.applyKids key (.cons name mode sub rest) =
        (h.applyChanges ⟨mode, sub⟩ (key ++ [name])).applyKids key rest := by
      simp only [Holding.applyKids, concat_name hkey hname]
      rfl
    generalize h.applyChanges ⟨mode, sub⟩ (key ++ [name]) = h1 at hp1 hchild hstep
    rw [hpath] at hchild
    have hready2 : ReadyKids rest h1.content key.path := by
      rcases hready with hup | hquiet
      · exact .inl (hchild.above hup)
      · right
        intro s
        by_cases hs : s = fold name
        · rw [hs, hnew]
          exact everywhere_none _
        · rw [← hother s hs]
          exact hquiet s
    obtain ⟨hp2, hbelow⟩ := ihr hrest (Coherent.rest hnew hnodes) hkey hp1 hready2
    rw [hstep]
    refine ⟨hp2, Below.cons (by rwa [hself]) hbelow ?_ ?_⟩
    · intro q b
      rw [hnew]
      exact UniTransactionGen.visible_none q b
    · intro s hs
      rw [hother s hs]

/-- After `commit` the base holds what was seen before, nothing is pending, and the
announcements tell a listener what changed in what is seen, which is nothing in the end. -/
theorem commit_spec (g : UniTransactionGen) (hg : Coherent g.root g.base.content) :
    g.commit.1.root = none ∧ g.commit.1.base.content = g.view ∧
      mirror g.view (g.commit.2.map Delta.note) = g.commit.1.view := by
  unfold commit
  cases hroot : g.root with
  | none =>
    have hview : g.view = g.base.content := by rw [view, hroot, overlay_none]
    exact ⟨hroot, hview.symm, rfl⟩
  | some root =>
    have hnode : Coherent (some root) g.base.content := hroot ▸ hg
    have hp : Progress g (g, []) := ⟨fun _ _ => rfl, hg, rfl⟩
    have hready : Ready root (Holding.content (g, [])) (path []) := by
      left
      intro p hpre hne
      exact absurd (prefix_nil.mp hpre) hne
    obtain ⟨hp', hat⟩ := at_applyChanges hnode plain_nil hp hready
      (fun h₁ hp₁ hready₁ => below_applyKids (hnode.proper root rfl) (fun s => hnode.child s)
        plain_nil hp₁ hready₁)
    have hcontent : (Holding.applyChanges root [] (g, [])).1.base.content = g.view := by
      funext p
      have h := hat.inside p
      rw [path_nil, nil_append] at h
      rw [view, hroot]
      exact h
    refine ⟨rfl, hcontent, ?_⟩
    have hidem : overlay g.root g.view = g.view := by
      funext p
      exact visible_idem g.root p _
    have hafter : view ⟨none, (Holding.applyChanges root [] (g, [])).1.base⟩ = g.view :=
      (overlay_none _).trans hcontent
    show mirror g.view ((Holding.applyChanges root [] (g, [])).2.map Delta.note) = _
    rw [hp'.mirror, hcontent, hidem]
    exact hafter.symm

/-! ## What is read at a key with a trailing slash -/

/-- The change tree has a value of its own at the path: a new one, that of a key created on the
way to another, or one in a replaced subtree. -/
def Provides (node : Option UniConfChangeTree) (p : List Segment) : Prop :=
  match node with
  | none => False
  | some node =>
    match node.val with
    | .newTree newtree => contents newtree p ≠ none
    | mode =>
      match p with
      | [] => mode ≠ .blank
      | s :: p => Provides (node.kids.lookup s) p

theorem provides_nil {node : UniConfChangeTree} (h : node.val.Through) :
    Provides (some node) [] ↔ node.val ≠ .blank := by
  exact through_cases h (fun _ _ => Iff.rfl) (fun _ _ => Iff.rfl) fun _ => Iff.rfl

theorem provides_cons {node : UniConfChangeTree} (h : node.val.Through) (s : Segment)
    (p : List Segment) : Provides (some node) (s :: p) ↔ Provides (node.kids.lookup s) p := by
  exact through_cases h (fun _ _ => Iff.rfl) (fun _ _ => Iff.rfl) fun _ => Iff.rfl

theorem base_get_slash (base : UniTempGen) (key : UniConfKey) : base.get (key ++ [[]]) = none := by
  rw [UniTempGen.get_eq, UniTempGen.refGet, slash_hastrailingslash]
  rfl

theorem getLoop_none (base : UniTempGen) (pre rest : UniConfKey) :
    getLoop base pre none rest = base.get (pre ++ rest) := by
  cases rest <;> rfl

theorem getLoop_newTree (base : UniTempGen) (pre : UniConfKey)
    (newtree : Option UniConfValueTree) (kids : Forest Segment Change) (rest : UniConfKey) :
    getLoop base pre (some ⟨.newTree newtree, kids⟩) rest =
      contents newtree (path rest) := by
  cases newtree with
  | none => cases rest <;> rfl
  | some newtree =>
    have hfind : getLoop base pre (some ⟨.newTree (some newtree), kids⟩) rest =
        (UniConfTree.find newtree rest).map val := by
      cases rest <;> rfl
    rw [hfind, find_eq]
    rfl

theorem getLoop_through (base : UniTempGen) (pre : UniConfKey) {node : UniConfChangeTree}
    (h : node.val.Through) (s : Segment) (rest : UniConfKey) :
    getLoop base pre (some node) (s :: rest) =
      getLoop base (pre ++ [s]) (findchild node s) rest := by
  exact through_cases h (fun _ _ => rfl) (fun _ _ => rfl) fun _ => rfl

-- the empty last segment is found at the node itself
theorem getLoop_slash (base : UniTempGen) (pre : UniConfKey) (node : Option UniConfChangeTree)
    {rest : UniConfKey} (hrest : rest.Plain) :
    getLoop base pre node (rest ++ [[]]) = none ↔ ¬ Provides node rest.path := by
  induction rest generalizing pre node with
  | nil =>
    rcases node_cases node with rfl | ⟨newtree, kids, rfl⟩ | ⟨n, rfl, hn⟩
    · exact iff_of_true (base_get_slash base pre) id
    · rw [getLoop_newTree, path_slash]
      exact not_not.symm
    · have hbase := base_get_slash base pre
      rw [path_nil, provides_nil hn, nil_append, getLoop_through base pre hn]
      obtain ⟨mode, kids⟩ := n
      cases mode with
      | newTree newtree => exact absurd hn id
      | newValue newvalue => simp [findchild, getLoop]
      | newNode flag | blank => simp [findchild, getLoop, hbase]
  | cons s rest ih =>
    obtain ⟨hs, hrest⟩ := plain_cons.mp hrest
    rw [path_cons_of_ne hs]
    rcases node_cases node with rfl | ⟨newtree, kids, rfl⟩ | ⟨n, rfl, hn⟩
    · have h := base_get_slash base (pre ++ s :: rest)
      rw [append_assoc] at h
      exact iff_of_true h id
    · rw [getLoop_newTree, path_slash, path_cons_of_ne hs]
      exact not_not.symm
    · rw [cons_append, getLoop_through base pre hn, findchild_of_ne hs, ih _ _ hrest,
        provides_cons hn]

/-! ## The result -/

/-- After `commit` the base holds the pending sets replayed on its content at that time and
nothing is left pending; and `get` finds the same before and after at a key exactly if the key
has no trailing slash, or no value of its own in the change tree. -/
theorem commit_exact (base : UniTempGen) (es : List Edit) :
    let g := (create base).edits es
    let after := g.commit.1
    after.base.content = (replay g.base es).content ∧
      (∀ key, after.base.get key = (replay g.base es).get key) ∧
      after.base.content = g.view ∧ after.root = none ∧
      ∀ key : ValidKey, after.get key = g.get key ↔
        (key.val.hastrailingslash → ¬ Provides g.root (path key)) := by
  intro g after
  have hcoherent : Coherent g.root g.base.content :=
    (edits_spec (g := create base) (coherent_none _) es).2.2
  obtain ⟨hroot, hcontent, -⟩ := commit_spec g hcoherent
  have hreplay : (replay g.base es).content = g.view := content_replay base es
  have hsame : after.base.content = (replay g.base es).content := hcontent.trans hreplay.symm
  refine ⟨hsame, ?_, hcontent, hroot, ?_⟩
  · intro key
    rw [UniTempGen.get_eq, UniTempGen.get_eq, hsame]
  · rintro ⟨key, hkey⟩
    rcases hkey.cases with hplain | ⟨k, -, hplain, rfl⟩
    · have hget : after.get key = g.get key := by
        rw [get_eq _ hplain, get_eq g hplain, view, hroot, overlay_none, hcontent]
      exact iff_of_true hget fun h => by simp [hplain.not_slash] at h
    · have hafter : after.get (k ++ [[]]) = none := by
        rw [get, hroot, getLoop_none]
        exact base_get_slash after.base k
      have hbefore := getLoop_slash g.base [] g.root hplain
      rw [hafter, path_slash, slash_hastrailingslash]
      exact eq_comm.trans (hbefore.trans (by simp))

/-- `a` = 1 is read at `a/` before the commit, and nothing after it. -/
theorem commit_slash :
    let g := (create .empty).edits [.set ⟨[[97]], by decide⟩ (some [49])]
    g.get [[97], []] = some [49] ∧ g.commit.1.get [[97], []] = none := by
  decide

/-! ## Listeners -/

/-- An edit, or a commit. -/
inductive Op where
  | edit (e : Edit)
  | commit

def op (g : UniTransactionGen) : Op → UniTransactionGen × List Delta
  | .edit e => g.edit e
  | .commit => g.commit

/-- The transaction's own sets are told as what they change in the view: a listener's map is
changed wherever the view is. -/
def ownChanges (before after : PathMap Segment Str) (mirror : PathMap Segment Str) :
    PathMap Segment Str :=
  fun p => if before p = after p then mirror p else after p

/-- A listener's map after an operation: a direct set of the base and a commit are heard, the
transaction's own sets are known. -/
def follow (g : UniTransactionGen) (mirror : PathMap Segment Str) (o : Op) : PathMap Segment Str :=
  match o with
  | .edit (.set _ _) | .edit (.setv _) => ownChanges g.view (g.op o).1.view mirror
  | .edit (.baseSet _ _) | .commit => PathMap.mirror mirror ((g.op o).2.map Delta.note)

/-- The generator and a listener's map after a list of operations. -/
def run (s : UniTransactionGen × PathMap Segment Str) (os : List Op) :
    UniTransactionGen × PathMap Segment Str :=
  os.foldl (fun s o => ((s.1.op o).1, s.1.follow s.2 o)) s

theorem coherent_op (hg : Coherent g.root g.base.content) (o : Op) :
    Coherent (g.op o).1.root (g.op o).1.base.content := by
  cases o with
  | edit e => exact (edit_spec hg e).2.2
  | commit =>
    obtain ⟨hroot, -, -⟩ := commit_spec g hg
    show Coherent g.commit.1.root _
    rw [hroot]
    exact coherent_none _

theorem view_baseSet (g : UniTransactionGen) (hg : Coherent g.root g.base.content)
    (key : UniConfKey) (value : WvString) :
    mirror g.view ((g.baseSet key value).2.map Delta.note) = (g.baseSet key value).1.view := by
  obtain ⟨hbase, hheard, -⟩ := baseSet_heard g hg key value
  have hview : (g.baseSet key value).1.view = overlay g.root (g.base.set key value).1.content := by
    funext p
    rw [view, hbase]
    exact hheard.visible p _
  rw [hview]
  exact hheard.mirror

theorem follow_view (hg : Coherent g.root g.base.content) (o : Op) :
    g.follow g.view o = (g.op o).1.view := by
  have hown : ∀ after, ownChanges g.view after g.view = after := by
    intro after
    funext p
    unfold ownChanges
    split
    · assumption
    · rfl
  cases o with
  | edit e =>
    cases e with
    | set key value | setv pairs => exact hown _
    | baseSet key value => exact view_baseSet g hg key value
  | commit => exact (commit_spec g hg).2.2

theorem run_spec {g : UniTransactionGen} (hg : Coherent g.root g.base.content) (os : List Op) :
    let s := run (g, g.view) os
    Coherent s.1.root s.1.base.content ∧ s.2 = s.1.view := by
  induction os generalizing g with
  | nil => exact ⟨hg, rfl⟩
  | cons o os ih =>
    have h := ih (coherent_op hg o)
    rw [← follow_view hg o] at h
    exact h

/-- In every run a listener's map is the view after each operation; and `gencallback` passes
on exactly those announcements of the base that change what is seen, with the value seen. -/
theorem listeners_coherent (base : UniTempGen) (os : List Op) :
    let s := run (create base, (create base).view) os
    (∀ key : PlainKey, s.2 (path key) = s.1.get key) ∧ s.2 = s.1.view ∧
      ∀ key value, (s.1.baseSet key value).2 = (s.1.base.set key value).2.filterMap fun d =>
        let before := s.1.get d.key
        let after := (s.1.baseSet key value).1.get d.key
        if before = after then none else some ⟨d.key, after⟩ := by
  intro s
  obtain ⟨hcoherent, hmirror⟩ := run_spec (g := create base) (coherent_none _) os
  refine ⟨?_, hmirror, ?_⟩
  · intro key
    rw [get_eq _ key.2, hmirror]
  · intro key value
    obtain ⟨hbase, hheard, htold⟩ := baseSet_heard s.1 hcoherent key value
    rw [htold]
    apply filterMap_congr
    intro d hd
    have hplain := (mem_set hd).1
    have hnew : (s.1.base.set key value).1.content d.key.path = d.value :=
      ((s.1.base.steps_set key value).value_of_mem (mem_map_of_mem hd)).1
    have hafter : (s.1.baseSet key value).1.get d.key = visible s.1.root d.key.path d.value := by
      rw [get_eq _ hplain, view, overlay, hheard.visible, hbase, hnew]
    have hbefore : s.1.get d.key = visible s.1.root d.key.path (s.1.base.content d.key.path) :=
      get_eq _ hplain
    simp only [hafter, hbefore, passed]

end UniTransactionGen

end WvStreams
