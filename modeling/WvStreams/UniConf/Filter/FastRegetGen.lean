import WvStreams.Lib.Machine
import WvStreams.UniConf.Announce
import WvStreams.UniConf.Filter.Protection
import WvStreams.UniConf.MountGen

/-!
# `UniFastRegetGen`

The filter keeps a tree of the keys that were asked for, with their values, null ones among
them, and changes a value when the inner generator announces it. Every value in the tree is
the inner generator's (`Coherent`), so `get` and `exists` answer as the inner generator does, at
every key without a trailing slash (`reget_transparent`). The tree compares keys up to case and
`exists` asks for the value, so the inner generator has to keep to both (`Documented`); it is
enough to be ancestor-closed and to announce every change at the other keys
(`not_transparent`).
-/

namespace WvStreams

open Lib UniConfKey Option Function UniMountGen UniTempGen

/-- A generator with what its `set` announces, and with whatever else may happen to it. -/
structure NotifyingGen (σ ε : Type) extends IUniConfGen σ where
  told : UniConfKey → WvString → σ → List Delta
  event : ε → σ → σ × List Delta

namespace NotifyingGen

variable {σ ε : Type}

/-- As `UniConfKey` and `IUniConfGen` document it: keys are compared up to case, and a key that
does not exist is one whose value is null. -/
structure Documented (inner : NotifyingGen σ ε) : Prop where
  caseless : UniPermGen.Caseless inner.toIUniConfGen
  exists_ : ∀ s (key : UniConfKey), key.Plain → inner.exists_ key s = (inner.get key s).isSome

/-- An existing key's parent exists, and every change of a value is announced. -/
structure Notifies (inner : NotifyingGen σ ε) : Prop where
  closed : ∀ s (key : UniConfKey) (t : Segment), UniConfKey.Plain (key ++ [t]) →
    inner.get key s = none → inner.get (key ++ [t]) s = none
  set : ∀ s key value (k : UniConfKey), k.Plain →
    inner.get k (inner.set key value s) = tell k.path (inner.get k s) (inner.told key value s)
  event : ∀ s e (k : UniConfKey), k.Plain →
    inner.get k (inner.event e s).1 = tell k.path (inner.get k s) (inner.event e s).2

theorem get_congr {inner : NotifyingGen σ ε} (h : UniPermGen.Caseless inner.toIUniConfGen) (s : σ)
    {k k' : UniConfKey} (hk : k.Plain) (hk' : k'.Plain) (hpath : k.path = k'.path) :
    inner.get k s = inner.get k' s := by
  apply h
  rwa [← hk.path_eq, ← hk'.path_eq]

end NotifyingGen

namespace UniFastRegetGen

/-- The keys that were asked for; a value may be null. -/
abbrev Cache := UniConfTree WvString

section

variable {σ ε : Type} (inner : NotifyingGen σ ε)

def create (s : σ) : Cache := ⟨inner.get [] s, .nil⟩

/-- `none` if the assertion fails. -/
def get (s : σ) (tree : Cache) (key : UniConfKey) : Option (WvString × Cache) :=
  -- keys with trailing slashes can't have values set on them
  if key.hastrailingslash then some (none, tree)
  else
    match _h : UniConfTree.find tree key with
    | some t => some (t.val, tree)
    | none =>
      let parentkey := key.removelast
      (get s tree parentkey).bind fun r =>
        (UniConfTree.find r.2 parentkey).map fun t =>
          let value := if t.val.isSome then inner.get key s else none
          -- the node of the parent is there, so one node is created
          (value, Tree.write none (some r.2) key value)
termination_by key.length
decreasing_by
  have hne : key ≠ [] := by
    rintro rfl
    cases _h
  have hle := UniConfKey.length_collapse_le key.dropLast
  have hpos := List.length_pos_iff.mpr hne
  rw [List.length_dropLast] at hle
  show (UniConfKey.collapse key.dropLast).length < key.length
  omega

def exists_ (s : σ) (tree : Cache) (key : UniConfKey) : Option (Bool × Cache) :=
  (get inner s tree key).map fun r => (r.1.isSome, r.2)

def haschildren (s : σ) (tree : Cache) (key : UniConfKey) : Bool :=
  match UniConfTree.find tree key with
  | none => inner.haschildren key s
  -- without a value there are no children
  | some t => if t.val.isNone then false else inner.haschildren key s

def setvalue (tree : Cache) (d : Delta) : Cache :=
  match UniConfTree.find tree d.key with
  | none => tree
  | some _ => Tree.write none (some tree) (d.key.filter (· ≠ [])) d.value

/-- The announcements of the inner generator, which are also passed on. -/
def gencallback (tree : Cache) (ds : List Delta) : Cache := ds.foldl setvalue tree

inductive Input (ε : Type) where
  | get (key : ValidKey)
  | exists_ (key : ValidKey)
  | set (key : UniConfKey) (value : WvString)
  | event (e : ε)

inductive Output where
  | value (value : WvString)
  | found (found : Bool)
  | passed (ds : List Delta)
  deriving DecidableEq

def machine : Machine (σ × Cache) (Input ε) Output where
  step := fun (s, tree) i =>
    match i with
    | .get key => (get inner s tree key).map fun r => ((s, r.2), .value r.1)
    | .exists_ key => (exists_ inner s tree key).map fun r => ((s, r.2), .found r.1)
    | .set key value =>
      let ds := inner.told key value s
      some ((inner.set key value s, gencallback tree ds), .passed ds)
    | .event e =>
      let (s, ds) := inner.event e s
      some ((s, gencallback tree ds), .passed ds)

/-- What the filter is to answer, from the inner generator alone. -/
def answer (s : σ) : Input ε → Output
  | .get key => .value (if key.val.hastrailingslash then none else inner.get key s)
  | .exists_ key => .found (!key.val.hastrailingslash && inner.exists_ key s)
  | .set key value => .passed (inner.told key value s)
  | .event e => .passed (inner.event e s).2

def after (s : σ) : Input ε → σ
  | .set key value => inner.set key value s
  | .event e => (inner.event e s).1
  | _ => s

/-- Every value in the tree is the current one. -/
def Coherent (s : σ) (tree : Cache) : Prop :=
  ∀ key : UniConfKey, key.Plain → ∀ v, tree.content key.path = some v → v = inner.get key s

end

variable {σ ε : Type} {inner : NotifyingGen σ ε}

theorem find_content (tree : Cache) (key : UniConfKey) :
    (UniConfTree.find tree key).map Tree.val = tree.content key.path := by
  rw [UniConfTree.find_eq]
  rfl

variable {tree : Cache} {key : UniConfKey}

theorem content_link {parent : UniConfKey} {t : Segment} (hkey : Plain (parent ++ [t]))
    (hparent : tree.content parent.path ≠ none) (value : WvString) :
    (Tree.write none (some tree) (parent ++ [t]) value).content =
      update tree.content (path (parent ++ [t])) (some value) := by
  rw [Tree.content_write, hkey.path_eq, Tree.contents_some]
  apply PathMap.assign_of_ancestors
  intro p hp hne hnone
  obtain ⟨hplain, -⟩ := plain_append.mp hkey
  rw [List.map_append, List.map_singleton] at hp hne
  obtain ⟨q, hq⟩ := (List.prefix_concat_iff.mp hp).resolve_left hne
  apply hparent
  rw [hplain.path_eq, ← hq]
  exact tree.content_closed p q hnone

theorem Coherent.update (h : UniPermGen.Caseless inner.toIUniConfGen) {s : σ} {tree' : Cache} (hc : Coherent inner s tree)
    (hkey : key.Plain)
    (htree : tree'.content = update tree.content key.path (some (inner.get key s))) :
    Coherent inner s tree' := by
  intro k hk v hv
  rw [htree] at hv
  by_cases hpath : k.path = key.path
  · rw [hpath, update_self] at hv
    rw [NotifyingGen.get_congr h s hk hkey hpath]
    exact (some.inj hv).symm
  · rw [update_of_ne hpath] at hv
    exact hc k hk v hv

theorem get_spec (hd : UniPermGen.Caseless inner.toIUniConfGen) (h : inner.Notifies) {s : σ}
    (hc : Coherent inner s tree) (hkey : key.Plain) :
    ∃ tree', get inner s tree key = some (inner.get key s, tree') ∧ Coherent inner s tree' ∧
      tree'.content key.path = some (inner.get key s) := by
  induction key using List.reverseRecOn with
  | nil =>
    have hroot : tree.val = inner.get [] s := hc [] plain_nil _ rfl
    refine ⟨tree, ?_, hc, ?_⟩
    · rw [get, ← hroot]
      rfl
    · rw [← hroot]
      rfl
  | append_singleton parent t ih =>
    have hfind := find_content tree (parent ++ [t])
    rw [get, hkey.not_slash, if_neg Bool.false_ne_true]
    split
    · rename_i node hnode
      rw [hnode, map_some] at hfind
      have hval : node.val = inner.get (parent ++ [t]) s := hc _ hkey _ hfind.symm
      rw [hval] at hfind
      exact ⟨tree, by rw [hval], hc, hfind.symm⟩
    · obtain ⟨hparent, -⟩ := plain_append.mp hkey
      obtain ⟨tree', hget, hc', hcontent⟩ := ih hparent
      have hparent' := find_content tree' parent
      rw [hcontent, map_eq_some_iff] at hparent'
      obtain ⟨node, hnode, hval⟩ := hparent'
      dsimp only
      rw [hparent.removelast_concat t, hget, bind_some, hnode, map_some, hval]
      -- below a null parent the value is null without asking
      have hvalue : (if (inner.get parent s).isSome then inner.get (parent ++ [t]) s else none) =
          inner.get (parent ++ [t]) s := by
        split
        · rfl
        · rename_i hnone
          exact (h.closed s parent t hkey (by simpa using hnone)).symm
      have hlink := content_link hkey (by rw [hcontent]; simp) (inner.get (parent ++ [t]) s)
      refine ⟨_, by rw [hvalue], hc'.update hd hkey hlink, ?_⟩
      rw [hlink, update_self]

theorem content_setvalue (tree : Cache) (d : Delta) (p : List Segment) :
    (setvalue tree d).content p =
      (tree.content p).map fun v => if d.key.path = p then d.value else v := by
  have hfind := find_content tree d.key
  unfold setvalue
  split
  · rename_i hnone
    rw [hnone, map_none] at hfind
    cases hp : tree.content p with
    | none => rfl
    | some v =>
      have hne : d.key.path ≠ p := by
        rintro rfl
        rw [hp] at hfind
        cases hfind
      rw [map_some, if_neg hne]
  · rename_i node hnode
    rw [hnode, map_some] at hfind
    have hwrite : (Tree.write none (some tree) (d.key.filter (· ≠ [])) d.value).content =
        update tree.content d.key.path (some d.value) := by
      rw [Tree.content_write, Tree.contents_some]
      apply PathMap.assign_of_ancestors
      rintro q ⟨r, hr⟩ - hnone
      have hclosed := tree.content_closed q r hnone
      rw [hr] at hclosed
      have hpath : tree.content d.key.path = none := hclosed
      rw [← hfind] at hpath
      cases hpath
    rw [hwrite]
    by_cases hp : d.key.path = p
    · subst hp
      rw [update_self, ← hfind, map_some, if_pos rfl]
    · rw [update_of_ne (Ne.symm hp)]
      simp [hp]

theorem content_gencallback (tree : Cache) (ds : List Delta) (p : List Segment) :
    (gencallback tree ds).content p =
      (tree.content p).map fun v => tell p v ds := by
  induction ds generalizing tree with
  | nil => simp [gencallback, tell]
  | cons d ds ih =>
    show (gencallback (setvalue tree d) ds).content p = _
    rw [ih, content_setvalue, map_map]
    rfl

theorem Coherent.gencallback {s s' : σ} (hc : Coherent inner s tree) {ds : List Delta}
    (hds : ∀ k : UniConfKey, k.Plain → inner.get k s' = tell k.path (inner.get k s) ds) :
    Coherent inner s' (gencallback tree ds) := by
  intro key hkey v hv
  rw [content_gencallback, map_eq_some_iff] at hv
  obtain ⟨v, hv, rfl⟩ := hv
  rw [hds key hkey, hc key hkey v hv]

/-- No call fails and each is answered as the inner generator is then. -/
def Transparent (inner : NotifyingGen σ ε) (s : σ × Cache) (i : Input ε) (s' : σ × Cache)
    (o : Output) : Prop :=
  s'.1 = after inner s.1 i ∧ o = answer inner s.1 i

theorem step_spec (hd : inner.Documented) (h : inner.Notifies) (s : σ × Cache) (i : Input ε)
    (hc : Coherent inner s.1 s.2) :
    ∃ s' o, (machine inner).step s i = some (s', o) ∧ Transparent inner s i s' o ∧
      Coherent inner s'.1 s'.2 := by
  obtain ⟨s, tree⟩ := s
  have hget : ∀ key : ValidKey, ∃ tree', get inner s tree key =
      some (if key.val.hastrailingslash then none else inner.get key s, tree') ∧
        Coherent inner s tree' := by
    rintro ⟨key, hkey⟩
    rcases hkey.cases with hplain | ⟨k, -, -, rfl⟩
    · obtain ⟨tree', hget, hc', -⟩ := get_spec hd.caseless h hc hplain
      refine ⟨tree', ?_, hc'⟩
      rw [hget, hplain.not_slash, if_neg Bool.false_ne_true]
    · refine ⟨tree, ?_, hc⟩
      rw [get]
      simp only [slash_hastrailingslash, if_true]
  cases i with
  | get key =>
    obtain ⟨tree', hget, hc'⟩ := hget key
    refine ⟨(s, tree'), _, ?_, ⟨rfl, rfl⟩, hc'⟩
    simp only [machine, hget, map_some, answer]
  | exists_ key =>
    obtain ⟨tree', hget, hc'⟩ := hget key
    refine ⟨(s, tree'), _, ?_, ⟨rfl, rfl⟩, hc'⟩
    simp only [machine, exists_, hget, map_some, answer]
    rcases key.2.cases with hplain | ⟨k, -, -, hslash⟩
    · rw [hplain.not_slash, hd.exists_ s key.val hplain]
      rfl
    · rw [hslash, slash_hastrailingslash]
      rfl
  | set key value => exact ⟨_, _, rfl, ⟨rfl, rfl⟩, hc.gencallback (h.set s key value)⟩
  | event e => exact ⟨_, _, rfl, ⟨rfl, rfl⟩, hc.gencallback (h.event s e)⟩

theorem coherent_create (inner : NotifyingGen σ ε)
    (h : UniPermGen.Caseless inner.toIUniConfGen) (s : σ) : Coherent inner s (create inner s) := by
  intro key hkey v hv
  cases hpath : key.path with
  | nil =>
    rw [hpath] at hv
    rw [NotifyingGen.get_congr h s hkey plain_nil hpath]
    exact (some.inj hv).symm
  | cons t p =>
    rw [hpath] at hv
    cases hv

/-- Whatever is asked, set or announced, and in whatever order, the answers are those of the
inner generator; a key with a trailing slash has no value. -/
theorem reget_transparent (inner : NotifyingGen σ ε) (hd : inner.Documented) (h : inner.Notifies)
    (s : σ) (is : List (Input ε)) :
    (machine inner).Runs (Transparent inner) (s, create inner s) is := by
  have hstep : ∀ (s : σ × Cache) i, Coherent inner s.1 s.2 → ∃ s' o,
      (machine inner).step s i = some (s', o) ∧ Transparent inner s i s' o ∧
        Coherent inner s'.1 s'.2 := fun s i hs => step_spec hd h s i hs
  exact Machine.runs_of_forall hstep (coherent_create inner hd.caseless s) is

end UniFastRegetGen

/-- `UniTempGen`, whose `set` may also be called past the filter. -/
def UniTempGen.notifying : NotifyingGen UniTempGen Call where
  toIUniConfGen := gen
  told key value g := (g.set key value).2
  event c g := g.set c.1 c.2

def UniNullGen : IUniConfGen Unit where
  get _ _ := none
  exists_ _ _ := false
  haschildren _ _ := false
  iterator _ _ := some []
  set _ _ s := s
  setv _ s := s

theorem UniTempGen.documented : notifying.Documented :=
  ⟨UniSecureGen.caseless_temp, fun _ _ _ => rfl⟩

theorem UniTempGen.notifies : notifying.Notifies := by
  have hset : ∀ (g : UniTempGen) key value (k : UniConfKey), k.Plain →
      (g.set key value).1.get k = tell k.path (g.get k) (g.set key value).2 := by
    intro g key value k hk
    rw [get_of_plain _ hk, get_of_plain _ hk]
    exact (tell_set g key value k.path).symm
  refine ⟨?_, hset, fun g c => hset g c.1 c.2⟩
  intro g key t hkey hnone
  obtain ⟨hplain, -⟩ := plain_append.mp hkey
  have hnone' : g.content key.path = none := (get_of_plain g hplain).symm.trans hnone
  show g.get (key ++ [t]) = none
  rw [get_of_plain g hkey, path_append]
  exact g.content_closed _ _ hnone'

namespace UniFastRegetGen

/-- A key is missed, created behind the filter, removed with its parent and missed again. -/
theorem reget_temp :
    let ab : ValidKey := ⟨[[97], [98]], by decide, by decide⟩
    (machine notifying).Runs (Transparent notifying)
      (.empty, create notifying .empty)
      [.get ab, .event (ab.val, some [49]), .get ab, .set [[97]] none, .exists_ ab] := by
  intro ab
  exact reget_transparent notifying documented notifies .empty _

/-- Null generators below the mount points; nothing ever changes. -/
def mounted (mounts : MountList) : NotifyingGen (UniMountGen.States mounts) Empty where
  toIUniConfGen := gen mounts
  told _ _ _ := []
  event e := e.elim

def fixed (value : UniConfKey → WvString) : NotifyingGen Unit Empty where
  get key _ := value key
  exists_ key _ := (value key).isSome
  haschildren _ _ := false
  iterator _ _ := none
  set _ _ s := s
  setv _ s := s
  told _ _ _ := []
  event e := e.elim

theorem mounted_spec {mounts : MountList} (hget : ∀ m ∈ mounts, ∀ key s, m.gen.get key s = none)
    (hset : ∀ m ∈ mounts, ∀ key value s, m.gen.set key value s = s) :
    UniPermGen.Caseless (mounted mounts).toIUniConfGen ∧ (mounted mounts).Notifies := by
  have hfound : ∀ (s : UniMountGen.States mounts) (key : UniConfKey) i,
      findmount mounts key = some i → (mounted mounts).get key s = none := by
    intro s key i hi
    show UniMountGen.get mounts key s = none
    rw [UniMountGen.get, hi]
    exact hget _ (List.get_mem mounts i) _ _
  refine ⟨?_, ?_, ?_, fun _ e => e.elim⟩
  · apply caseless
    intro m hm s k k' _
    rw [hget m hm, hget m hm]
  · intro s key t hkey hnone
    cases hmount : findmount mounts (key ++ [t]) with
    | some i => exact hfound s _ i hmount
    | none =>
      have hmount' := findmount_below hkey hmount
      have hempty : ∀ k, findmount mounts k = none → (mounted mounts).get k s =
          if has_subkey mounts k none then some [] else none := by
        intro k hk
        show UniMountGen.get mounts k s = _
        rw [UniMountGen.get, hk]
      rw [hempty _ hmount'] at hnone
      rw [hempty _ hmount, if_neg]
      intro hsub
      rw [has_subkey_above hkey hsub, if_pos rfl] at hnone
      cases hnone
  · intro s key value k _
    have hsame : (mounted mounts).set key value s = s := by
      show UniMountGen.set mounts key value s = s
      unfold UniMountGen.set
      cases findmount mounts key with
      | none => rfl
      | some i =>
        show Function.update s i _ = s
        rw [hset _ (List.get_mem mounts i), Function.update_eq_self]
    rw [hsame]
    rfl

/-- An ancestor-closed generator that announces all changes is not enough. Above what is mounted
at `a/b`, the key `a/` has an empty value, and none through the filter; with another generator
mounted at `a`, that key exists without a value, and not through the filter; and where `a` has a
value and `A` has none, the filter gives the one for the other. -/
theorem not_transparent :
    let ab : ValidKey := ⟨[[97], [98]], by decide, by decide⟩
    let a : ValidKey := ⟨[[97]], by decide, by decide⟩
    let one : MountList := [⟨Unit, UniNullGen, ab, by decide⟩]
    let two : MountList := [⟨Unit, UniNullGen, ab, by decide⟩, ⟨Unit, UniNullGen, a, by decide⟩]
    let s : UniMountGen.States one := fun | ⟨0, _⟩ => ()
    let s' : UniMountGen.States two := fun | ⟨0, _⟩ => () | ⟨1, _⟩ => ()
    let cased := fixed fun key => if key = [] ∨ key = a.val then some [] else none
    let slash : UniConfKey := [[97], []]
    ((mounted one).Notifies ∧ (mounted one).get slash s = some [] ∧
      (mounted one).exists_ slash s = true ∧ get (mounted one) s (create (mounted one) s) slash =
        some (none, create (mounted one) s)) ∧
    ((mounted two).Notifies ∧ UniPermGen.Caseless (mounted two).toIUniConfGen ∧
      (mounted two).exists_ a s' = true ∧
      (exists_ (mounted two) s' (create (mounted two) s') a).map Prod.fst = some false) ∧
    (cased.Notifies ∧ cased.get [[65]] () = none ∧
      ((get cased () (create cased ()) a).bind fun r => get cased () r.2 [[65]]).map Prod.fst =
        some (some [])) := by
  intro ab a one two s s' cased slash
  have hnull : ∀ m ∈ two, (∀ key s, m.gen.get key s = none) ∧
      ∀ key value s, m.gen.set key value s = s := by
    intro m hm
    rcases List.mem_pair.mp hm with rfl | rfl <;> exact ⟨fun _ _ => rfl, fun _ _ _ => rfl⟩
  have hone : ∀ m ∈ one, m ∈ two := fun m hm => List.mem_cons.mpr (.inl (List.mem_singleton.mp hm))
  have hmounted := mounted_spec (fun m hm => (hnull m hm).1) fun m hm => (hnull m hm).2
  refine ⟨⟨?_, by decide, by decide, ?_⟩, ⟨hmounted.2, hmounted.1, by decide, ?_⟩, ?_, rfl, ?_⟩
  · exact (mounted_spec (fun m hm => (hnull m (hone m hm)).1)
      fun m hm => (hnull m (hone m hm)).2).2
  · rw [get]
    rfl
  · obtain ⟨tree, hget, -⟩ := get_spec hmounted.1 hmounted.2 (coherent_create _ hmounted.1 s')
      (show UniConfKey.Plain [[97]] by decide)
    rw [exists_, hget]
    rfl
  · refine ⟨?_, fun _ _ _ _ _ => rfl, fun _ e => e.elim⟩
    intro _ key t hkey hnone
    cases key with
    | nil => cases hnone
    | cons r key => exact if_neg (by simp [a])
  · have hroot : get cased () (create cased ()) [] = some (some [], create cased ()) := by
      rw [get]
      rfl
    have ha : get cased () (create cased ()) a =
        some (some [], Tree.write none (some (create cased ())) a (some [])) := by
      rw [get]
      show (get cased () (create cased ()) []).bind _ = _
      rw [hroot]
      rfl
    rw [ha, bind_some, get]
    rfl

end UniFastRegetGen

end WvStreams
