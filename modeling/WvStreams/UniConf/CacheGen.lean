import WvStreams.UniConf.RecursiveIter

/-!
# `UniCacheGen`

The generator is a `UniTempGen` that is filled from the inner generator by the first `refresh`
and that follows its announcements from the beginning. The load leaves out empty values and
the root. `cache_coherent_iff` says of which states before the first refresh the cache is
correct from then on.
-/

namespace WvStreams

open Lib UniTempGen UniConfKey List PathMap

/-- The inner generator is a `UniTempGen`. -/
structure UniCacheGen where
  cache : UniTempGen
  inner : UniTempGen
  refreshed_once : Bool

namespace UniCacheGen

def create (inner : UniTempGen) : UniCacheGen := ⟨.empty, inner, false⟩

/-- Store what the recursive iterator gives, empty values left out. -/
def loadtree (g : UniCacheGen) (key : UniConfKey := []) : UniCacheGen :=
  let loaded := UniTempGen.gen.recursiveiterator g.inner.depth key g.inner
  { g with
    cache := loaded.foldl (fun c e => if !e.2.not then (c.set e.1 e.2).1 else c) g.cache }

def refresh (g : UniCacheGen) : UniCacheGen × Bool :=
  if !g.refreshed_once then
    let (inner, ret) := UniTempGen.gen.refresh g.inner
    ({ loadtree { g with inner := inner } with refreshed_once := true }, ret)
  else (g, false)

def deltacallback (g : UniCacheGen) (d : Delta) : UniCacheGen :=
  { g with cache := (g.cache.set d.key d.value).1 }

/-- A call of the inner generator's `set`, each announcement of which is followed. -/
def innerSet (g : UniCacheGen) (key : UniConfKey) (value : WvString) : UniCacheGen :=
  let (inner, ds) := g.inner.set key value
  ds.foldl deltacallback { g with inner := inner }

def set (g : UniCacheGen) (key : UniConfKey) (value : WvString) : UniCacheGen :=
  g.innerSet key value

def get (g : UniCacheGen) (key : UniConfKey) : WvString := g.cache.get key

inductive Op where
  | set (key : UniConfKey) (value : WvString)
  | innerSet (key : UniConfKey) (value : WvString)

def op (g : UniCacheGen) : Op → UniCacheGen
  | .set key value => g.set key value
  | .innerSet key value => g.innerSet key value

def run (g : UniCacheGen) (os : List Op) : UniCacheGen := os.foldl op g

/-- `get` finds what the inner `get` does. -/
def Coherent (g : UniCacheGen) : Prop := ∀ key, g.get key = g.inner.get key

/-- A key with an empty value is in the cache or has a key with a value that is not empty below
it, and the root is in the cache if it has such a value. -/
structure Loadable (g : UniCacheGen) : Prop where
  empty : ∀ key : UniConfKey, key.Plain → g.inner.get key = some [] → g.cache.get key ≠ none ∨
      ∃ q : UniConfKey, q ≠ [] ∧ q.Plain ∧ ∃ v, v ≠ [] ∧ g.inner.get (key ++ q) = some v
  root : ∀ v, v ≠ [] → g.inner.get [] = some v → g.cache.get [] = some v

theorem content_foldl_set (c : UniTempGen) {ds : List Delta} (hds : ∀ d ∈ ds, d.key.Plain) :
    (ds.foldl (fun c d => (c.set d.key d.value).1) c).content =
      assigns [] c.content (ds.map Delta.note) := by
  induction ds generalizing c with
  | nil => rfl
  | cons d ds ih =>
    obtain ⟨hd, hds⟩ := forall_mem_cons.mp hds
    rw [foldl_cons, ih _ hds, content_set, refSet, hd.not_slash]
    rfl

theorem foldl_deltacallback (g : UniCacheGen) (ds : List Delta) : ds.foldl deltacallback g =
    { g with cache := ds.foldl (fun c d => (c.set d.key d.value).1) g.cache } := by
  induction ds generalizing g with
  | nil => rfl
  | cons d ds ih => exact ih (g.deltacallback d)

theorem innerSet_inner (g : UniCacheGen) (key : UniConfKey) (value : WvString) :
    (g.innerSet key value).inner = (g.inner.set key value).1 := by
  show (foldl deltacallback _ _).inner = _
  rw [foldl_deltacallback]
  rfl

theorem content_innerSet (g : UniCacheGen) (key : UniConfKey) (value : WvString) :
    (g.innerSet key value).cache.content =
      assigns [] g.cache.content ((g.inner.set key value).2.map Delta.note) := by
  show (foldl deltacallback _ _).cache.content = _
  rw [foldl_deltacallback]
  exact content_foldl_set _ fun d hd => (mem_set hd).1

variable {g : UniCacheGen} {inner : UniTempGen} {key : UniConfKey}

theorem content_eq_innerSet (key : UniConfKey) (value : WvString) {p : List Segment}
    (h : g.cache.content p = g.inner.content p) :
    (g.innerSet key value).cache.content p = (g.innerSet key value).inner.content p := by
  rw [content_innerSet, innerSet_inner]
  exact (steps_set g.inner key value).assigns_eq [] (content_closed _) h

theorem coherent_iff (g : UniCacheGen) :
    g.Coherent ↔
      ∀ key : UniConfKey, key.Plain → g.cache.content key.path = g.inner.content key.path := by
  constructor
  · intro h key hkey
    rw [← get_of_plain _ hkey, ← get_of_plain _ hkey]
    exact h key
  · intro h key
    show g.cache.get key = g.inner.get key
    have hplain : Plain (key.filter (· ≠ [])) := by simp [Plain]
    have hpath := h _ hplain
    rw [path_filter] at hpath
    rw [get_eq, get_eq, refGet, refGet, hpath]

theorem coherent_op (h : g.Coherent) (o : Op) : (g.op o).Coherent := by
  rw [coherent_iff] at h ⊢
  intro key hkey
  cases o with
  | set k v | innerSet k v => exact content_eq_innerSet k v (h key hkey)

theorem coherent_run (h : g.Coherent) (os : List Op) : (g.run os).Coherent := by
  induction os generalizing g with
  | nil => exact h
  | cons o os ih => exact ih (coherent_op h o)

/-- What the cache has, the inner generator has, perhaps with another value where the cache has
an empty one. -/
def Early (g : UniCacheGen) : Prop :=
  ∀ p v, g.cache.content p = some v →
    g.inner.content p = some v ∨ (v = [] ∧ g.inner.content p ≠ none)

theorem early_create (inner : UniTempGen) : (create inner).Early := by
  nofun

theorem early_op (h : g.Early) (o : Op) : (g.op o).Early := by
  have hset : ∀ key value, (g.innerSet key value).Early := by
    intro key value p v hv
    have hsteps := steps_set g.inner key value
    have hclosed := content_closed (g.inner.set key value).1
    rw [content_innerSet] at hv
    rw [innerSet_inner]
    by_cases hmem : ∃ n ∈ (g.inner.set key value).2.map Delta.note, n.1 = p
    · left
      rw [← hv]
      exact (assigns_exact hclosed (fun n hn => (hsteps.value_of_mem hn).1.symm)
        (Or.inr (Or.inl hmem))).symm
    · have hnot : ∀ n ∈ (g.inner.set key value).2.map Delta.note, n.1 ≠ p :=
        fun n hn he => hmem ⟨n, hn, he⟩
      rcases assigns_of_not_mem [] g.cache.content hnot with
        hsame | ⟨hvivified, n, hn, hne, hpre⟩ | ⟨hnone, -⟩
      · rw [hsteps.eq_of_not_mem hnot]
        exact h p v (hsame.symm.trans hv)
      · right
        rw [hvivified] at hv
        refine ⟨(Option.some.inj hv).symm, fun hnone => ?_⟩
        obtain ⟨q, hq⟩ := hpre
        apply hne
        rw [← (hsteps.value_of_mem hn).1, ← hq]
        exact hclosed p q hnone
      · rw [hnone] at hv
        cases hv
  cases o with
  | set key value | innerSet key value => exact hset key value

theorem early_run (h : g.Early) (os : List Op) : (g.run os).Early := by
  induction os generalizing g with
  | nil => exact h
  | cons o os ih => exact ih (early_op h o)

def loads (inner : UniTempGen) : List (UniConfKey × WvString) :=
  (UniTempGen.gen.recursiveiterator inner.depth [] inner).filter fun e => !e.2.not

theorem mem_loads {e : UniConfKey × WvString} (he : e ∈ loads inner) :
    e.1 ≠ [] ∧ e.1.Plain ∧ e.2 = inner.content e.1.path ∧ ∃ v, v ≠ [] ∧ e.2 = some v := by
  obtain ⟨hmem, hval⟩ := mem_filter.mp he
  obtain ⟨⟨q, hq, hkey⟩, hplain, hcontent, hne⟩ :=
    mem_recursiveiterator plain_nil hmem
  refine ⟨by rwa [hkey, nil_append], hplain, hcontent, ?_⟩
  obtain ⟨v, hv⟩ := Option.ne_none_iff_exists'.mp hne
  refine ⟨v, ?_, hv⟩
  rintro rfl
  rw [hv] at hval
  cases hval

theorem loads_complete {p : List Segment} (hp : p ≠ []) {v : Str} (hv : v ≠ [])
    (h : inner.content p = some v) : ∃ e ∈ loads inner, e.1.path = p := by
  have hne : inner.content ([] ++ p) ≠ none := by simp [h]
  obtain ⟨e, he, hpath⟩ := recursiveiterator_complete plain_nil hp
    (length_le_depth hne) hne
  refine ⟨e, mem_filter.mpr ⟨he, ?_⟩, hpath⟩
  have hcontent := (mem_recursiveiterator plain_nil he).2.2.1
  rw [hpath] at hcontent
  rw [hcontent]
  simpa [h] using hv

def loadNotes (inner : UniTempGen) : List (Note Segment Str) :=
  (loads inner).map fun e => (e.1.path, e.2)

theorem mem_loadNotes {n : Note Segment Str} (hn : n ∈ loadNotes inner) :
    n.1 ≠ [] ∧ n.2 = inner.content n.1 ∧ ∃ v, v ≠ [] ∧ n.2 = some v := by
  obtain ⟨e, he, rfl⟩ := mem_map.mp hn
  obtain ⟨hne, hplain, hval, hv⟩ := mem_loads he
  refine ⟨?_, hval, hv⟩
  show e.1.path ≠ []
  rw [hplain.path_eq]
  exact fun h => hne (map_eq_nil_iff.mp h)

theorem content_refresh (hg : g.refreshed_once = false) :
    g.refresh.1.inner = g.inner ∧ g.refresh.1.cache.content =
      assigns [] g.cache.content (loadNotes g.inner) := by
  have hrefresh : g.refresh.1 = { loadtree g with refreshed_once := true } := by
    rw [refresh, hg]
    rfl
  rw [hrefresh]
  refine ⟨rfl, ?_⟩
  have hfold : ∀ (l : List (UniConfKey × WvString)) (c : UniTempGen),
      l.foldl (fun c e => if !e.2.not then (c.set e.1 e.2).1 else c) c =
        ((l.filter fun e => !e.2.not).map fun e => (⟨e.1, e.2⟩ : Delta)).foldl
          (fun c d => (c.set d.key d.value).1) c := by
    intro l
    induction l with
    | nil => exact fun _ => rfl
    | cons e l ih =>
      intro c
      rw [foldl_cons, ih, filter_cons]
      split <;> rfl
  show content (foldl _ _ _) = _
  rw [hfold, content_foldl_set, map_map]
  · congr 1
  · intro d hd
    obtain ⟨e, he, rfl⟩ := mem_map.mp hd
    exact (mem_loads he).2.1

theorem exists_below {k : UniConfKey} (hkey : key.Plain) (hk : k.Plain)
    (hpre : key.path <+: k.path) : ∃ q : UniConfKey, q.Plain ∧ path (key ++ q) = k.path := by
  have hq : Plain (k.drop key.length) := fun h => hk (mem_of_mem_drop h)
  refine ⟨k.drop key.length, hq, ?_⟩
  rw [hkey.path_eq, hk.path_eq, prefix_iff_eq_take, length_map] at hpre
  rw [path_append, hkey.path_eq, hq.path_eq, hk.path_eq, hpre, map_drop, take_append_drop]

theorem exists_below_of_mem (hkey : key.Plain) {n : Note Segment Str} (hn : n ∈ loadNotes inner)
    (hne : n.1 ≠ key.path) (hpre : key.path <+: n.1) :
    ∃ q : UniConfKey, q ≠ [] ∧ q.Plain ∧ ∃ v, v ≠ [] ∧ inner.get (key ++ q) = some v := by
  obtain ⟨e, he, rfl⟩ := mem_map.mp hn
  obtain ⟨-, hplain, hval, v, hv, hsome⟩ := mem_loads he
  obtain ⟨q, hq, hpath⟩ := exists_below hkey hplain hpre
  refine ⟨q, ?_, hq, v, hv, ?_⟩
  · rintro rfl
    rw [append_nil] at hpath
    exact hne hpath.symm
  · rw [get_of_plain _ (hkey.append hq), hpath, ← hval, hsome]

theorem mem_of_exists_below {q : UniConfKey} (hkey : key.Plain) (hne : q ≠ []) (hq : q.Plain)
    {v : Str} (hv : v ≠ []) (h : inner.get (key ++ q) = some v) :
    ∃ n ∈ loadNotes inner, n.2 ≠ none ∧ key.path <+: n.1 := by
  rw [get_of_plain _ (hkey.append hq)] at h
  have hpath : path (key ++ q) ≠ [] := by
    rw [(hkey.append hq).path_eq]
    simp [hne]
  obtain ⟨e, he, hepath⟩ := loads_complete hpath hv h
  refine ⟨(e.1.path, e.2), mem_map_of_mem he, ?_, ?_⟩
  · obtain ⟨-, -, -, u, -, hu⟩ := mem_loads he
    simp [hu]
  · show key.path <+: e.1.path
    rw [hepath, path_append]
    exact prefix_append _ _

theorem loadable_of_coherent (hg : g.refreshed_once = false) (h : g.refresh.1.Coherent) :
    g.Loadable := by
  obtain ⟨hinner, hcontent⟩ := content_refresh hg
  rw [coherent_iff, hinner, hcontent] at h
  constructor
  · intro key hkey hempty
    have hkeep := h key hkey
    rw [get_of_plain _ hkey] at hempty ⊢
    rw [hempty] at hkeep
    by_contra hno
    rw [not_or, not_not] at hno
    obtain ⟨hnone, hbelow⟩ := hno
    have hnot : ∀ n ∈ loadNotes g.inner, n.1 ≠ key.path := by
      intro n hn he
      obtain ⟨-, hval, v, hne, hv⟩ := mem_loadNotes hn
      rw [he, hempty, hv] at hval
      exact hne (Option.some.inj hval)
    rcases assigns_of_not_mem [] g.cache.content hnot with
      hsame | ⟨-, n, hn, -, hpre⟩ | ⟨hnone', -⟩
    · rw [hsame, hnone] at hkeep
      cases hkeep
    · exact hbelow (exists_below_of_mem hkey hn (hnot n hn) hpre)
    · rw [hnone'] at hkeep
      cases hkeep
  · intro v hv hroot
    have hkeep := h [] plain_nil
    rw [get_of_plain _ plain_nil] at hroot ⊢
    rw [hroot] at hkeep
    rcases assigns_of_not_mem [] g.cache.content
      (fun n (hn : n ∈ loadNotes g.inner) => (mem_loadNotes hn).1) with
      hsame | ⟨hvivified, -⟩ | ⟨hnone, -⟩
    · exact hsame.symm.trans hkeep
    · exact absurd (Option.some.inj (hvivified.symm.trans hkeep)).symm hv
    · cases hnone.symm.trans hkeep

theorem coherent_of_loadable (hg : g.refreshed_once = false) (h : g.Early) (hload : g.Loadable) :
    g.refresh.1.Coherent := by
  obtain ⟨hinner, hcontent⟩ := content_refresh hg
  rw [coherent_iff, hinner, hcontent]
  intro key hkey
  have hloads : ∀ n ∈ loadNotes g.inner, n.2 = g.inner.content n.1 :=
    fun n hn => (mem_loadNotes hn).2.1
  apply assigns_exact g.inner.content_closed hloads
  have hearly := h key.path
  cases hval : g.inner.content key.path with
  | none =>
    left
    cases hcache : g.cache.content key.path with
    | none => rfl
    | some v =>
      rcases hearly v hcache with hv | ⟨-, hne⟩
      · rw [hval] at hv
        cases hv
      · exact absurd hval hne
  | some v =>
    by_cases hv : v = []
    · subst hv
      cases hcache : g.cache.content key.path with
      | some w =>
        left
        rcases hearly w hcache with hw | ⟨rfl, -⟩
        · exact hw.symm.trans hval
        · rfl
      | none =>
        right
        right
        rcases hload.empty key hkey (by rw [get_of_plain _ hkey, hval]) with hne | hbelow
        · exact absurd ((get_of_plain _ hkey).trans hcache) hne
        · obtain ⟨q, hq, hplain, w, hw, hget⟩ := hbelow
          exact ⟨rfl, rfl, mem_of_exists_below hkey hq hplain hw hget⟩
    · by_cases hroot : key.path = []
      · left
        have hvroot := hload.root v hv
        rw [get_of_plain _ plain_nil, get_of_plain _ plain_nil] at hvroot
        rw [hroot] at hval ⊢
        exact hvroot hval
      · right
        left
        obtain ⟨e, he, hepath⟩ := loads_complete hroot hv hval
        exact ⟨(e.1.path, e.2), mem_map_of_mem he, hepath⟩

theorem coherent_refresh_iff (hg : g.refreshed_once = false) (h : g.Early) :
    g.refresh.1.Coherent ↔ g.Loadable :=
  ⟨loadable_of_coherent hg, coherent_of_loadable hg h⟩

/-- Whatever was set before the first refresh, `get` is right after it and after all later sets
if and only if no key was left out: none has an empty value without being in the cache or above
a value that is not empty, and the root has no such value unknown to the cache. -/
theorem cache_coherent_iff (inner : UniTempGen) (earlier : List Op) :
    (∀ (later : List Op) (key : UniConfKey),
      let g := ((create inner).run earlier).refresh.1.run later
      g.get key = g.inner.get key) ↔ ((create inner).run earlier).Loadable := by
  have hfresh : ∀ (os : List Op) {g : UniCacheGen}, g.refreshed_once = false →
      (g.run os).refreshed_once = false := by
    intro os
    induction os with
    | nil => exact fun hg => hg
    | cons o os ih =>
      intro g hg
      apply ih
      cases o with
      | set key value | innerSet key value =>
        show (foldl deltacallback _ _).refreshed_once = false
        rw [foldl_deltacallback]
        exact hg
  rw [← coherent_refresh_iff (hfresh earlier rfl) (early_run (early_create inner) earlier)]
  constructor
  · intro h key
    exact h [] key
  · intro h later key
    exact coherent_run h later key

/-- A key with the empty value and nothing below it is not loaded, nor is the value of the root. -/
theorem cache_misses_empty :
    let inner := empty.setv [([], some [49]), ([[97]], some [])]
    let g := (create inner).refresh.1
    g.inner.get [] = some [49] ∧ g.get [] = none ∧
      g.inner.get [[97]] = some [] ∧ g.get [[97]] = none := by
  decide

end UniCacheGen

end WvStreams
