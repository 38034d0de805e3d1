import WvStreams.Lib.Graft
import WvStreams.UniConf.GenRecursiveIter
import WvStreams.UniConf.Mounting.Iterators

/-!
# `UniConf::copy` and `UniConf::move`

The top key is copied first, whatever is at the new place, and then the keys below it as a recursive
iterator comes to them. The iterator reads the tree while it is changed (`content_copy`). What is
copied is told from what was there; the missing keys above the new place are created with empty
values, and a top that does not exist removes what is at the new place.
-/

namespace WvStreams

open Lib PathMap UniTempGen List UniTempMounts RecursiveIter

namespace UniConfKey

/-- `base.subkey(key)`: what is behind the segments of the base. -/
def subkey (base key : UniConfKey) : UniConfKey :=
  if base.suborsame key then key.removefirstN base.dirsegments else []

theorem concat_plain {path key : UniConfKey} (hpath : path.Plain) (hkey : key.Plain)
    (hne : key ≠ []) : concat path key = path ++ key := by
  have hcurrent := concat_current hpath hkey
  rwa [if_neg (by simpa [isempty] using hne)] at hcurrent

theorem subkey_append {base key : UniConfKey} (hbase : base.Plain) (hkey : key.Plain) :
    subkey base (base ++ key) = key := by
  have hplain := hbase.append hkey
  have hsub : base.suborsame (base ++ key) = true := by
    rw [hbase.suborsame_iff hplain.valid, path_append]
    exact prefix_append _ _
  rw [subkey, if_pos hsub, dirsegments, hbase.not_slash, if_neg Bool.false_ne_true,
    hplain.removefirstN, drop_left]

end UniConfKey

def UniTempMounts.tableGen : IUniConfGen UniTempMounts where
  get key t := t.get key
  exists_ key t := t.exists_ key
  haschildren key t := t.haschildren key
  iterator key t :=
    match t.findmount key with
    | none => some ((t.iterator key).map fun name => (name, t.get (.ofString name)))
    | some found => UniTempGen.gen.iterator (UniMountGen.trimkey found.key key) found.temp
  set key value t := (t.set key value).1
  setv pairs t := pairs.foldl (fun t pair => (t.set pair.key pair.value).1) t

def UniTempMounts.temp (gen : Nat) (t : UniTempMounts) : UniTempGen :=
  (t.find? fun m => m.gen = gen).elim .empty UniTempMount.temp

namespace UniConf

open UniMountGen (trimkey)
open UniTempMounts (findmountunder tableGen)

/-- For a handle with the `fullkey` that is given. -/
def getme (t : UniTempMounts) (key : UniConfKey) : WvString := t.get key

def setme (t : UniTempMounts) (key : UniConfKey) (value : WvString) : UniTempMounts :=
  (t.set key value).1

def remove (t : UniTempMounts) (key : UniConfKey) : UniTempMounts := setme t key none

def copyKey (src dst : UniConfKey) (force : Bool) (key : UniConfKey) (t : UniTempMounts) :
    UniTempMounts :=
  let current := UniConfKey.concat src key
  let dst2 := UniConfKey.concat dst (src.subkey current)
  if force || (getme t dst2).isNone then setme t dst2 (getme t current) else t

/-- With as many rounds of the loop as allowed, and whether it came to its end. -/
def copy (n : Nat) (src dst : UniConfKey) (force : Bool) (t : UniTempMounts) :
    UniTempMounts × Bool :=
  let t := setme t dst (getme t src)
  match findmountunder t src with
  | some found =>
    let it := rewind UniTempGen.gen (t.temp found.gen)
      { top := trimkey found.key src }
    it.loop UniTempGen.gen (temp found.gen) (copyKey src dst force) n t
  | none =>
    let it := rewind tableGen t { top := src }
    it.loop tableGen id (copyKey src dst force) n t

def move (n : Nat) (src dst : UniConfKey) (t : UniTempMounts) : UniTempMounts × Bool :=
  let t := remove t dst
  let (t, ended) := copy n src dst true t
  (if ended then remove t src else t, ended)

/-- The table with another generator at the mount point. -/
def one (m : UniTempMount) (g : UniTempGen) : UniTempMounts := [{ m with temp := g }]

/-- The generator at the mount point has the content `c`. -/
def Holds (m : UniTempMount) (c : PathMap Segment Str) (t : UniTempMounts) : Prop :=
  ∃ g, t = one m g ∧ g.content = c

def rel (m : UniTempMount) (key : UniConfKey) : List Segment :=
  key.path.drop m.key.val.path.length

structure Below (m : UniTempMount) (key : UniConfKey) : Prop where
  plain : key.Plain
  above : m.key.val.path <+: key.path

variable {m : UniTempMount} {g : UniTempGen} {c : PathMap Segment Str} {t : UniTempMounts}
  {src dst key k : UniConfKey} {force : Bool} {done : List (List Segment)}

open UniConfKey

theorem Below.append (h : Below m key) (hk : k.Plain) : Below m (key ++ k) where
  plain := h.plain.append hk
  above := by
    rw [path_append]
    exact h.above.trans (prefix_append _ _)

theorem rel_append (h : Below m key) (k : UniConfKey) : rel m (key ++ k) = rel m key ++ k.path := by
  rw [rel, path_append, drop_append_of_le_length h.above.length_le]
  rfl

theorem path_eq_rel (h : Below m key) : key.path = m.key.val.path ++ rel m key :=
  (prefix_iff_eq_append.mp h.above).symm

theorem findmount_one (hm : m.key.val.Plain) (h : Below m key) :
    (one m g).findmount key = some { m with temp := g } := by
  have hsub : m.key.val.suborsame key = true := (hm.suborsame_iff h.plain.valid).mpr h.above
  exact find?_cons_of_pos hsub

theorem path_trimkey (hm : m.key.val.Plain) (h : Below m key) :
    (trimkey m.key key).path = rel m key :=
  UniConfKey.path_trimkey hm h.plain.valid h.above

theorem getme_one (hm : m.key.val.Plain) (h : Below m key) :
    getme (one m g) key = g.content (rel m key) := by
  rw [getme, UniTempMounts.get, findmount_one hm h, ← path_trimkey hm h]
  exact get_of_plain g h.plain.trimkey

theorem Holds.getme (hm : m.key.val.Plain) (ht : Holds m c t) (h : Below m key) :
    getme t key = c (rel m key) := by
  obtain ⟨g, rfl, rfl⟩ := ht
  exact getme_one hm h

theorem Holds.closed (ht : Holds m c t) : c.Closed := by
  obtain ⟨g, -, rfl⟩ := ht
  exact g.content_closed

theorem Holds.setme (hm : m.key.val.Plain) (ht : Holds m c t) (h : Below m key)
    (value : WvString) : Holds m (assign [] c (rel m key) value) (setme t key value) := by
  obtain ⟨g, rfl, rfl⟩ := ht
  have hset : UniConf.setme (one m g) key value = one m (g.set (trimkey m.key key) value).1 := by
    rw [UniConf.setme, UniTempMounts.set, findmount_one hm h]
    dsimp only
    rw [one, setgen, if_pos rfl]
    rfl
  refine ⟨_, hset, ?_⟩
  rw [content_set, refSet, h.plain.trimkey.not_slash, Bool.false_and,
    if_neg Bool.false_ne_true, path_trimkey hm h]

/-- The branches below a path of a map. -/
def Child (c : PathMap Segment Str) (top : List Segment) (p : List Segment) (s : Segment) : Prop :=
  c (top ++ p ++ [s]) ≠ none

theorem descends_iff (hclosed : c.Closed) (top : List Segment) {p : List Segment} (hp : p ≠ []) :
    Descends (Child c top) p ↔ c (top ++ p) ≠ none := by
  constructor
  · intro h
    obtain ⟨q, s, rfl⟩ := eq_nil_or_concat p |>.resolve_left hp
    rw [concat_eq_append, ← append_assoc]
    rw [concat_eq_append] at h
    exact (descends_concat.mp h).2
  · intro h
    clear hp
    induction p using reverseRecOn with
    | nil => exact .root
    | append_singleton p s ih =>
      rw [← append_assoc] at h
      exact .child (ih fun hnone => h (hclosed _ [s] hnone)) h

theorem finite_below (g : UniTempGen) (top : List Segment) :
    {p | p ≠ [] ∧ Descends (Child g.content top) p}.Finite := by
  have hfinite : {p | g.content p ≠ none}.Finite := by
    cases hroot : g.root with
    | none => simp [content, hroot]
    | some root =>
      have hproper : UniConfTree.Proper root := g.proper root hroot
      refine ((root.postorder []).map (map fold)).finite_toSet.subset fun p hp => ?_
      refine (Tree.mem_postorder hproper [] p).mpr ⟨p, rfl, ?_⟩
      rwa [content, hroot] at hp
  refine (hfinite.preimage (append_right_injective top).injOn).subset fun p hp => ?_
  exact (descends_iff g.content_closed top hp.1).mp hp.2

theorem findmountunder_one (hm : m.key.val.Plain) (h : Below m key) :
    findmountunder (one m g) key = some { m with temp := g } := by
  have hsub : m.key.val.suborsame key = true := (hm.suborsame_iff h.plain.valid).mpr h.above
  simp [findmountunder, one, hsub]

theorem holds_copyKey (hm : m.key.val.Plain) (hsrc : Below m src) (hdst : Below m dst)
    (hclosed : c.Closed) (hapart : ¬ Nested (rel m src) (rel m dst)) {v : Str}
    (hv : c (rel m src) = some v)
    (ht : Holds m (graft [] c (rel m src) (rel m dst) force done) t) (hk : k.Plain)
    (hne : k.path ≠ []) (hthere : c (rel m src ++ k.path) ≠ none)
    (hparent : k.path.dropLast = [] ∨ k.path.dropLast ∈ done) (hnew : k.path ∉ done) :
    Holds m (graft [] c (rel m src) (rel m dst) force (done ++ [k.path]))
      (copyKey src dst force k t) := by
  have hknil : k ≠ [] := by
    rintro rfl
    exact hne rfl
  obtain ⟨w, hw⟩ := Option.ne_none_iff_exists'.mp hthere
  have hold : getme t (dst ++ k) = c (rel m dst ++ k.path) := by
    rw [ht.getme hm (hdst.append hk), rel_append hdst, graft_fresh hv hne hnew]
  have hvalue : getme t (src ++ k) = some w := by
    rw [ht.getme hm (hsrc.append hk), rel_append hsrc, graft_src hclosed hapart, hw]
  have hup : c (rel m src ++ k.path.dropLast) ≠ none := by
    intro hnone
    have hclosed' := hclosed _ [k.path.getLast hne] hnone
    rw [append_assoc, dropLast_concat_getLast] at hclosed'
    exact hthere hclosed'
  rw [copyKey, concat_plain hsrc.plain hk hknil, subkey_append hsrc.plain hk,
    concat_plain hdst.plain hk hknil, hold, hvalue]
  split
  · next hforce =>
    have hset := ht.setme hm (hdst.append hk) (some w)
    rw [rel_append hdst] at hset
    rwa [graft_store ht.closed hv hne hparent hup hw (by simpa using hforce)] at hset
  · next hforce =>
    obtain ⟨hforce, hnone⟩ := not_or.mp fun h => hforce (Bool.or_eq_true_iff.mpr h)
    rwa [graft_skip hv hne hnew (Bool.eq_false_of_not_eq_true hforce)]
    simpa using hnone

theorem content_copy (hm : m.key.val.Plain) (hsrc : Below m src) (hdst : Below m dst)
    (hapart : ¬ Nested (rel m src) (rel m dst)) (ht : Holds m c t) (force : Bool) :
    ∃ N t', (∀ n ≥ N, copy n src dst force t = (t', true)) ∧
      Holds m (copied [] c (rel m src) (rel m dst) force) t' := by
  have hclosed := ht.closed
  have hset := ht.setme hm hdst (getme t src)
  rw [ht.getme hm hsrc] at hset
  have hnil : graft [] c (rel m src) (rel m dst) force [] =
      assign [] c (rel m dst) (c (rel m src)) := graft_nil
  rw [← hnil] at hset
  have hlists : ∀ done t, Holds m (graft [] c (rel m src) (rel m dst) force done) t →
      RecursiveIter.Named gen (t.temp m.gen) ∧ Expands (Child c (rel m src)) path
          (expand gen (t.temp m.gen) (trimkey m.key src)) := by
    rintro done t ⟨g, rfl, hg⟩
    have hlists := lists_tempGen g
    have htemp : (one m g).temp m.gen = g := by simp [temp, one]
    have hchild : (fun p name => g.content ((trimkey m.key src).path ++ p ++ [name]) ≠ none) =
        Child c (rel m src) := by
      funext p name
      rw [Child, path_trimkey hm hsrc, hg, append_assoc, graft_src hclosed hapart]
    have hexpands := hlists.expands (trimkey m.key src)
    rw [htemp, ← hchild]
    exact ⟨hlists.named, hexpands⟩
  have hbody : ∀ done t (k : UniConfKey),
      Holds m (graft [] c (rel m src) (rel m dst) force done) t → k.Plain → k.path ≠ [] →
      Descends (Child c (rel m src)) k.path →
      (k.path.dropLast = [] ∨ k.path.dropLast ∈ done) → k.path ∉ done →
      Holds m (graft [] c (rel m src) (rel m dst) force (done ++ [k.path]))
        (copyKey src dst force k t) := by
    intro done t k ht hk hne hdescends hparent hnew
    have hthere := (descends_iff hclosed _ hne).mp hdescends
    obtain ⟨v, hv⟩ : ∃ v, c (rel m src) = some v :=
      Option.ne_none_iff_exists'.mp fun hnone => hthere (hclosed _ _ hnone)
    exact holds_copyKey hm hsrc hdst hclosed hapart hv ht hk hne hthere hparent hnew
  have hfinite : {p | p ≠ [] ∧ Descends (Child c (rel m src)) p}.Finite := by
    obtain ⟨g, -, rfl⟩ := ht
    exact finite_below g _
  obtain ⟨N, t', done, hloop, hdone, hmem⟩ := loop_ends hlists hbody hfinite hset
  refine ⟨N, t', fun n hn => ?_, ?_⟩
  · obtain ⟨g, hg, -⟩ := hset
    rw [copy]
    rw [ht.getme hm hsrc, hg, findmountunder_one hm hsrc]
    rw [hg] at hloop
    exact hloop n hn
  · rwa [graft_all fun q => ?_] at hdone
    rw [hmem]
    exact and_congr_right fun hne => descends_iff hclosed _ hne

/-- The keys below the old top are copied if it exists. The top itself is copied whether it may be
or not, so this is not said where there was another value. -/
structure Copies (force : Bool) (src dst : UniConfKey) (t t' : UniTempMounts) : Prop where
  copied : ∀ p : UniConfKey, p.Plain → getme t (src ++ p) ≠ none →
    (p = [] → force = true ∨ getme t dst = none) → getme t' (dst ++ p) =
      if force = true ∨ getme t (dst ++ p) = none then getme t (src ++ p) else getme t (dst ++ p)
  created : getme t src ≠ none → ∀ key : UniConfKey, key.Plain → key.path <+: dst.path →
    key.path ≠ dst.path → getme t' key = some ((getme t key).getD [])
  kept : ∀ key : UniConfKey, key.Plain →
    (∀ p : UniConfKey, p.Plain → key.path = (dst ++ p).path → getme t (src ++ p) = none) →
    (getme t src ≠ none → ¬ (key.path <+: dst.path ∧ key.path ≠ dst.path)) →
    (getme t src = none → getme t dst ≠ none → ¬ dst.path <+: key.path) → getme t' key = getme t key

structure Moves (src dst : UniConfKey) (t t' : UniTempMounts) : Prop where
  moved : ∀ p : UniConfKey, p.Plain → getme t' (dst ++ p) = getme t (src ++ p)
  emptied : ∀ p : UniConfKey, p.Plain → getme t' (src ++ p) = none
  created : getme t src ≠ none → ∀ key : UniConfKey, key.Plain → key.path <+: dst.path →
    key.path ≠ dst.path → getme t' key = some ((getme t key).getD [])
  kept : ∀ key : UniConfKey, key.Plain → ¬ dst.path <+: key.path → ¬ src.path <+: key.path →
    (getme t src ≠ none → ¬ key.path <+: dst.path) → getme t' key = getme t key

theorem rel_prefix_iff (hsrc : Below m src) (hdst : Below m dst) :
    rel m src <+: rel m dst ↔ src.path <+: dst.path := by
  rw [path_eq_rel hsrc, path_eq_rel hdst, prefix_append_right_inj]

theorem rel_inj (hsrc : Below m src) (hdst : Below m dst) :
    rel m src = rel m dst ↔ src.path = dst.path := by
  rw [path_eq_rel hsrc, path_eq_rel hdst, append_cancel_left_eq]

theorem nested_rel (hsrc : Below m src) (hdst : Below m dst) :
    Nested (rel m src) (rel m dst) ↔ Nested src.path dst.path := by
  rw [Nested, Nested, rel_prefix_iff hsrc hdst, rel_prefix_iff hdst hsrc, ne_eq, rel_inj hsrc hdst]

theorem exists_rest (hdst : dst.Plain) (hkey : key.Plain) (h : dst.path <+: key.path) :
    ∃ p : UniConfKey, p.Plain ∧ key.path = (dst ++ p).path := by
  have hplain : Plain (key.drop dst.length) :=
    fun hmem => hkey (mem_of_mem_drop hmem)
  refine ⟨_, hplain, ?_⟩
  rw [path_append, hplain.path_eq, map_drop, ← hkey.path_eq, ← hdst.length_path]
  exact (prefix_iff_eq_append.mp h).symm

theorem findmount_outside (hm : m.key.val.Plain) (hkey : key.Plain)
    (hout : ¬ m.key.val.path <+: key.path) : (one m g).findmount key = none := by
  have hsub : ¬ m.key.val.suborsame key = true := fun h =>
    hout ((hm.suborsame_iff hkey.valid).mp h)
  exact find?_cons_of_neg hsub

variable {t' : UniTempMounts}

theorem getme_outside (hm : m.key.val.Plain) (hkey : key.Plain)
    (hout : ¬ m.key.val.path <+: key.path) {c' : PathMap Segment Str} (ht : Holds m c t)
    (ht' : Holds m c' t') : getme t' key = getme t key := by
  obtain ⟨g, rfl, -⟩ := ht
  obtain ⟨g', rfl, -⟩ := ht'
  rw [getme, getme, UniTempMounts.get, UniTempMounts.get, findmount_outside hm hkey hout,
    findmount_outside hm hkey hout]
  rfl

theorem getme_above (hm : m.key.val.Plain) (hkey : key.Plain)
    (hout : ¬ m.key.val.path <+: key.path) (habove : key.path <+: m.key.val.path)
    (ht : Holds m c t) : getme t key = some [] := by
  obtain ⟨g, rfl, -⟩ := ht
  have hne : key.path ≠ m.key.val.path := fun h => hout (h ▸ prefix_refl _)
  have hbelow := hkey.valid.below hm ⟨habove, hne⟩
  rw [getme, UniTempMounts.get, findmount_outside hm hkey hout]
  refine if_pos ?_
  rw [one, has_subkey, hbelow]
  rfl

theorem created_of_content (hm : m.key.val.Plain) (hdst : Below m dst) {c' : PathMap Segment Str}
    (ht : Holds m c t) (ht' : Holds m c' t')
    (hcontent : ∀ p, p <+: rel m dst → p ≠ rel m dst → c' p = some ((c p).getD []))
    (hkey : key.Plain) (habove : key.path <+: dst.path) (hne : key.path ≠ dst.path) :
    getme t' key = some ((getme t key).getD []) := by
  by_cases hpoint : m.key.val.path <+: key.path
  · have hkey' : Below m key := ⟨hkey, hpoint⟩
    rw [ht'.getme hm hkey', ht.getme hm hkey']
    exact hcontent _ ((rel_prefix_iff hkey' hdst).mpr habove)
      fun h => hne ((rel_inj hkey' hdst).mp h)
  · have hpoint' : key.path <+: m.key.val.path :=
      (List.prefix_or_prefix_of_prefix habove hdst.above).resolve_right hpoint
    rw [getme_above hm hkey hpoint hpoint' ht, getme_above hm hkey hpoint hpoint' ht']
    rfl

theorem copies_of_content (hm : m.key.val.Plain) (hsrc : Below m src) (hdst : Below m dst)
    (ht : Holds m c t) (ht' : Holds m (copied [] c (rel m src) (rel m dst) force) t') :
    Copies force src dst t t' := by
  have hclosed := ht.closed
  have hgetsrc : ∀ p : UniConfKey, p.Plain → getme t (src ++ p) = c (rel m src ++ p.path) :=
    fun p hp => by rw [ht.getme hm (hsrc.append hp), rel_append hsrc]
  have hgetdst : ∀ p : UniConfKey, p.Plain → getme t (dst ++ p) = c (rel m dst ++ p.path) :=
    fun p hp => by rw [ht.getme hm (hdst.append hp), rel_append hdst]
  have htop := ht.getme hm hsrc
  constructor
  · intro p hp hthere hopen
    rw [hgetsrc p hp] at hthere
    obtain ⟨w, hw⟩ := Option.ne_none_iff_exists'.mp hthere
    obtain ⟨v, hv⟩ := Option.ne_none_iff_exists'.mp fun hnone => hthere (hclosed _ p.path hnone)
    rw [ht'.getme hm (hdst.append hp), rel_append hdst, hgetsrc p hp, hgetdst p hp, hw]
    by_cases hnil : p = []
    · subst hnil
      have hforce := hopen rfl
      rw [ht.getme hm hdst] at hforce
      rw [path_nil, append_nil] at hw ⊢
      rw [if_pos hforce, copied_top [] _ force hw]
    · have hne : p.path ≠ [] := by
        rw [hp.path_eq]
        simpa using hnil
      exact copied_below [] _ force hv hne hw
  · intro hthere key hkey habove hne
    rw [htop] at hthere
    obtain ⟨v, hv⟩ := Option.ne_none_iff_exists'.mp hthere
    refine created_of_content hm hdst ht ht' (fun p hp hpne => ?_) hkey habove hne
    have hbelow : ¬ rel m dst <+: p := fun h => hpne (hp.eq_of_length_le h.length_le)
    rw [copied_other hbelow, hv]
    exact assign_some_ancestor [] c v hp hpne
  · intro key hkey hmissing hancestor hremoved
    by_cases hpoint : m.key.val.path <+: key.path
    · have hkey' : Below m key := ⟨hkey, hpoint⟩
      rw [ht'.getme hm hkey', ht.getme hm hkey']
      rw [htop] at hancestor hremoved
      cases hv : c (rel m src) with
      | none =>
        rw [copied_none [] _ force fun q => hclosed _ q hv, prune]
        split
        · next hpre =>
          have hgone : c (rel m dst) = none := by
            by_contra hthere
            exact hremoved hv (by rwa [ht.getme hm hdst]) ((rel_prefix_iff hdst hkey').mp hpre)
          obtain ⟨q, hq⟩ := hpre
          rw [← hq]
          exact (hclosed _ q hgone).symm
        · rfl
      | some v =>
        by_cases hpre : dst.path <+: key.path
        · obtain ⟨p, hp, hpath⟩ := exists_rest hdst.plain hkey hpre
          have hrel : rel m key = rel m dst ++ p.path := by
            rw [← rel_append hdst, rel, hpath]
            rfl
          have hnone := hmissing p hp hpath
          rw [hgetsrc p hp] at hnone
          rw [hrel, copied_missing [] _ force hv hnone]
        · have hout : ¬ rel m dst <+: rel m key := fun h => hpre ((rel_prefix_iff hdst hkey').mp h)
          have hin : ¬ rel m key <+: rel m dst := by
            intro h
            refine hancestor (hv ▸ Option.some_ne_none v) ⟨(rel_prefix_iff hkey' hdst).mp h, ?_⟩
            exact fun he => hpre (he ▸ prefix_refl _)
          rw [copied_other hout, hv]
          exact assign_some_other [] c v hin
    · exact getme_outside hm hkey hpoint ht ht'

theorem content_move (hm : m.key.val.Plain) (hsrc : Below m src) (hdst : Below m dst)
    (hapart : ¬ Nested (rel m src) (rel m dst)) (ht : Holds m c t) :
    ∃ N t', (∀ n ≥ N, move n src dst t = (t', true)) ∧
      Holds m (moved [] c (rel m src) (rel m dst)) t' := by
  obtain ⟨N, t', hcopy, ht'⟩ := content_copy hm hsrc hdst hapart (ht.setme hm hdst none) true
  refine ⟨N, remove t' src, fun n hn => ?_, ht'.setme hm hsrc none⟩
  rw [move, remove, hcopy n hn]
  rfl

theorem moves_of_content (hm : m.key.val.Plain) (hsrc : Below m src) (hdst : Below m dst)
    (habove : ¬ src.path <+: dst.path) (habove' : ¬ dst.path <+: src.path) (ht : Holds m c t)
    (ht' : Holds m (moved [] c (rel m src) (rel m dst)) t') : Moves src dst t t' := by
  have hclosed := ht.closed
  have htop := ht.getme hm hsrc
  rw [← rel_prefix_iff hsrc hdst] at habove
  rw [← rel_prefix_iff hdst hsrc] at habove'
  constructor
  · intro p hp
    rw [ht'.getme hm (hdst.append hp), rel_append hdst, ht.getme hm (hsrc.append hp),
      rel_append hsrc]
    exact moved_below habove habove' hclosed _
  · intro p hp
    rw [ht'.getme hm (hsrc.append hp), rel_append hsrc]
    exact if_pos (prefix_append _ _)
  · intro hthere key hkey hup hne
    rw [htop] at hthere
    obtain ⟨v, hv⟩ := Option.ne_none_iff_exists'.mp hthere
    exact created_of_content hm hdst ht ht'
      (fun p hp hpne => moved_ancestor habove habove' hv hp hpne) hkey hup hne
  · intro key hkey hout hout' hancestor
    by_cases hpoint : m.key.val.path <+: key.path
    · have hkey' : Below m key := ⟨hkey, hpoint⟩
      rw [htop, ← rel_prefix_iff hkey' hdst] at hancestor
      rw [← rel_prefix_iff hdst hkey'] at hout
      rw [← rel_prefix_iff hsrc hkey'] at hout'
      rw [ht'.getme hm hkey', ht.getme hm hkey']
      exact moved_other habove habove' hout hout' hancestor
    · exact getme_outside hm hkey hpoint ht ht'

/-- In a tree of one mounted generator, keys without trailing slashes are copied and moved if
neither is strictly above the other. -/
theorem copy_and_move (m : UniTempMount) (hm : m.key.val.Plain) (src dst : UniConfKey)
    (hsrc : Below m src) (hdst : Below m dst) (hapart : ¬ PathMap.Nested src.path dst.path) :
    (∀ force, ∃ N t', (∀ n ≥ N, copy n src dst force [m] = (t', true)) ∧
      Copies force src dst [m] t') ∧
    (src.path ≠ dst.path → ∃ N t', (∀ n ≥ N, move n src dst [m] = (t', true)) ∧
      Moves src dst [m] t') := by
  have ht : Holds m m.temp.content [m] := ⟨m.temp, rfl, rfl⟩
  have hrel := mt (nested_rel hsrc hdst).mp hapart
  constructor
  · intro force
    obtain ⟨N, t', hcopy, ht'⟩ := content_copy hm hsrc hdst hrel ht force
    exact ⟨N, t', hcopy, copies_of_content hm hsrc hdst ht ht'⟩
  · intro hne
    obtain ⟨N, t', hmove, ht'⟩ := content_move hm hsrc hdst hrel ht
    exact ⟨N, t', hmove, moves_of_content hm hsrc hdst (fun h => hapart ⟨Or.inl h, hne⟩)
      (fun h => hapart ⟨Or.inr h, hne⟩) ht ht'⟩

def single (key : UniConfKey) (h : key.Sliced) : UniTempMount :=
  ⟨0, (UniTempGen.empty.set [[97]] (some [49])).1, point key h⟩

/-- The keys `a` and `a/x` below the mount point `m` are copied to `m/b/c`, and moved there. -/
theorem copy_and_move_subtree :
    let m : UniTempMount := { single [[109]] (by decide) with
      temp := ((single [[109]] (by decide)).temp.set [[97], [120]] (some [50])).1 }
    let src : UniConfKey := [[109], [97]]
    let dst : UniConfKey := [[109], [98], [99]]
    (∀ force, ∃ N t', (∀ n ≥ N, copy n src dst force [m] = (t', true)) ∧
      Copies force src dst [m] t') ∧
    (src.path ≠ dst.path → ∃ N t', (∀ n ≥ N, move n src dst [m] = (t', true)) ∧
      Moves src dst [m] t') :=
  copy_and_move _ (by decide) [[109], [97]] [[109], [98], [99]]
    ⟨by decide, by decide⟩ ⟨by decide, by decide⟩ fun h => absurd h.1 (by decide)

/-- Every key that nothing was copied to keeps its value. -/
def Alone (src dst : UniConfKey) (t t' : UniTempMounts) : Prop :=
  ∀ key : UniConfKey, key.Plain →
    (∀ p : UniConfKey, p.Plain → key.path = (dst ++ p).path → getme t (src ++ p) = none) →
    getme t' key = getme t key

/-- The key `a` is copied to `b/c`, and `b` is created. No value is stored at a key with a trailing
slash, or at one that nothing is mounted above; and a key that is moved to itself is removed. -/
theorem not_alone :
    (¬ ∀ src dst n t', Below (single [] (by decide)) src → Below (single [] (by decide)) dst →
      ¬ PathMap.Nested src.path dst.path → copy n src dst true [single [] (by decide)] = (t', true) →
      Alone src dst [single [] (by decide)] t') ∧ getme [single [] (by decide)] [[97]] = some [49] ∧
    getme (copy 1 [[97]] [[98], []] true [single [] (by decide)]).1 [[98], []] = none ∧
    getme (copy 1 [[109], [97]] [[98]] true [single [[109]] (by decide)]).1 [[98]] = none ∧
    getme (move 1 [[97]] [[97]] [single [] (by decide)]).1 [[97]] = none := by
  refine ⟨fun h => ?_, by decide, by decide, by decide, by decide⟩
  have halone := h [[97]] [[98], [99]] 1 _ ⟨by decide, by decide⟩ ⟨by decide, by decide⟩
    (fun h => absurd h.1 (by decide)) (Prod.ext rfl (by decide))
  have hkept := halone [[98]] (by decide) fun p hp hpath => ?_
  · exact absurd hkept (by decide)
  · have hlen := congrArg length hpath
    have hone : (path [[98]]).length = 1 := rfl
    have htwo : (path [[98], [99]]).length = 2 := rfl
    rw [path_append, length_append] at hlen
    omega

end UniConf

end WvStreams
