import WvStreams.Containers.HashTable
import WvStreams.UniConf.Filter.PermGen
import WvStreams.UniConf.SubKey

/-!
# `UniMountGen`

The generator that passes each call on to the generator mounted innermost above the key. The
mount table is fixed here, and the state is that of each mounted generator, so what happens to
one does not touch the others. `setv_eq_sets` says that the batches of `setv`, one for each
mount, do what the calls of `set` do.
-/

namespace WvStreams

open Lib List UniConfKey

/-- A mounted generator. A mount point is read from a string, so no segment has a slash. -/
structure UniGenMount where
  State : Type
  gen : IUniConfGen State
  key : ValidKey
  sliced : ∀ s ∈ key.val, slash ∉ s

abbrev MountList := List UniGenMount

namespace UniConfKey

theorem printable_inj {a b : UniConfKey} (ha : a.Valid) (hb : b.Valid)
    (has : ∀ s ∈ a, slash ∉ s) (hbs : ∀ s ∈ b, slash ∉ s) (h : printable a = printable b) :
    a = b := by
  have hsplit : ∀ {k : UniConfKey}, (∀ s ∈ k, slash ∉ s) → k ≠ [] →
      (printable k).splitOn slash = k := fun hk hne => splitOn_intercalate slash hk hne
  have hempty : ∀ {k : UniConfKey}, k.Valid → (∀ s ∈ k, slash ∉ s) → printable k = [] → k = [] := by
    intro k hk hks hnil
    by_contra hne
    have hk' := hsplit hks hne
    rw [hnil] at hk'
    exact hk.alone hk'.symm
  by_cases hnil : a = []
  · subst hnil
    exact (hempty hb hbs h.symm).symm
  · by_cases hnil' : b = []
    · subst hnil'
      exact hempty ha has h
    · rw [← hsplit has hnil, h, hsplit hbs hnil']

end UniConfKey

namespace UniMountGen

abbrev States (mounts : MountList) : Type := (i : Fin mounts.length) → (mounts.get i).State

variable (mounts : MountList)

/-- The first mount whose mount point is the key or above it. -/
def findmount (key : UniConfKey) : Option (Fin mounts.length) :=
  (List.finRange mounts.length).find? fun i => (mounts.get i).key.val.suborsame key

def trimkey (foundkey key : UniConfKey) : UniConfKey := key.removefirstN foundkey.length

/-- Something is mounted below the key, not behind the mount that was found. -/
def has_subkey (key : UniConfKey) (found : Option (Fin mounts.length)) : Bool :=
  (mounts.take (found.elim mounts.length (·.val + 1))).any fun m =>
    key.suborsame m.key && key.compareto m.key == .lt

def get (key : UniConfKey) (s : States mounts) : WvString :=
  match findmount mounts key with
  -- a key above a mount point exists, with an empty value
  | none => if has_subkey mounts key none then some [] else none
  | some i => (mounts.get i).gen.get (trimkey (mounts.get i).key key) (s i)

def exists_ (key : UniConfKey) (s : States mounts) : Bool :=
  let found := findmount mounts key
  found.elim false (fun i => (mounts.get i).gen.exists_ (trimkey (mounts.get i).key key) (s i)) ||
    has_subkey mounts key found

def haschildren (key : UniConfKey) (s : States mounts) : Bool :=
  let found := findmount mounts key
  found.elim false (fun i => (mounts.get i).gen.haschildren (trimkey (mounts.get i).key key) (s i)) ||
    has_subkey mounts key found

/-- The names below a key that nothing is mounted above, sorted. -/
def mountnames (key : UniConfKey) : List Segment :=
  let names := mounts.filterMap fun m =>
    if key.length < m.key.val.length && key.suborsame m.key then
      some (printable ((m.key.val.firstN (key.length + 1)).lastN 1))
    else none
  names.eraseDups.mergeSort fun a b => compare a b != .gt

def iterator (key : UniConfKey) (s : States mounts) : Option (List (Segment × WvString)) :=
  match findmount mounts key with
  | none => some ((mountnames mounts key).map fun name => (name, get mounts (.ofString name) s))
  | some i => (mounts.get i).gen.iterator (trimkey (mounts.get i).key key) (s i)

def set (key : UniConfKey) (value : WvString) (s : States mounts) : States mounts :=
  match findmount mounts key with
  | none => s
  | some i =>
    Function.update s i ((mounts.get i).gen.set (trimkey (mounts.get i).key key) value (s i))

/-- The pairs for one mount. -/
structure UniGenMountPairs where
  mount : Fin mounts.length
  pairs : List UniConfPair

/-- They are found by the printed mount point. -/
instance : Accessor (UniGenMountPairs mounts) Str where
  get_key data := printable (mounts.get data.mount).key
  hash := WvHash

def UniGenMountPairs.add (data : UniGenMountPairs mounts) (pair : UniConfPair) :
    UniGenMountPairs mounts :=
  { data with pairs := data.pairs ++ [pair] }

def trimmed (foundkey : UniConfKey) (pair : UniConfPair) : UniConfPair :=
  ⟨⟨trimkey foundkey pair.key, pair.key.2.range _ _⟩, pair.value⟩

/-- Put a pair into the batch of its mount; `none` if there is no such batch. -/
def addpair (mountpairs : WvHashTable (UniGenMountPairs mounts)) (pair : UniConfPair) :
    Option (WvHashTable (UniGenMountPairs mounts)) :=
  match findmount mounts pair.key with
  | none => some mountpairs
  | some i =>
    let found := (mounts.get i).key
    let key := printable found
    (mountpairs.find key).map fun _ =>
      mountpairs.update key fun data => data.add mounts (trimmed found pair)

def batches : WvHashTable (UniGenMountPairs mounts) :=
  (List.finRange mounts.length).foldl (fun t i => t.add ⟨i, []⟩) (WvHashTable.empty mounts.length)

def handover (s : States mounts) (data : UniGenMountPairs mounts) : States mounts :=
  Function.update s data.mount ((mounts.get data.mount).gen.setv data.pairs (s data.mount))

/-- `none` if a null pointer is followed. -/
def setv (pairs : List UniConfPair) (s : States mounts) : Option (States mounts) :=
  (pairs.foldlM (addpair mounts) (batches mounts)).map fun mountpairs =>
    mountpairs.toList.foldl (handover mounts) s

/-- The refreshes stop at the first that fails. -/
def refresh (s : States mounts) : States mounts × Bool :=
  (List.finRange mounts.length).foldl (fun r i =>
    if r.2 then
      let (t, result) := (mounts.get i).gen.refresh (r.1 i)
      (Function.update r.1 i t, result)
    else r) (s, true)

def commit (s : States mounts) : States mounts := fun i => (mounts.get i).gen.commit (s i)

def gen : IUniConfGen (States mounts) where
  get := get mounts
  exists_ := exists_ mounts
  haschildren := haschildren mounts
  iterator := iterator mounts
  set := set mounts
  setv pairs s := (setv mounts pairs s).getD s
  refresh := refresh mounts
  commit := commit mounts

variable {mounts}

variable {k : UniConfKey}

open UniConfKey

theorem has_subkey_congr {k' : UniConfKey} (h : k.map fold = k'.map fold)
    (found : Option (Fin mounts.length)) :
    has_subkey mounts k found = has_subkey mounts k' found := by
  unfold has_subkey compareto
  rw [h]
  simp only [fun key => (suborsame_congr h key).1]

theorem findmount_congr {k' : UniConfKey} (h : k.map fold = k'.map fold) :
    findmount mounts k = findmount mounts k' := by
  unfold findmount
  simp only [fun key => (suborsame_congr h key).2]

theorem trimkey_congr (foundkey : UniConfKey) {k' : UniConfKey} (h : k.map fold = k'.map fold) :
    (trimkey foundkey k).map fold = (trimkey foundkey k').map fold := by
  unfold trimkey removefirstN
  rw [length_congr h]
  exact map_fold_range h _ _

theorem caseless (h : ∀ m ∈ mounts, UniPermGen.Caseless m.gen) :
    UniPermGen.Caseless (gen mounts) := by
  intro s k k' hkey
  show get mounts k s = get mounts k' s
  unfold get
  rw [findmount_congr hkey, has_subkey_congr hkey]
  cases findmount mounts k' with
  | none => rfl
  | some i => exact h _ (get_mem mounts i) _ _ _ (trimkey_congr _ hkey)

theorem findmount_below {t : Segment} (hk : Plain (k ++ [t]))
    (h : findmount mounts (k ++ [t]) = none) : findmount mounts k = none := by
  obtain ⟨hplain, -⟩ := plain_append.mp hk
  rw [findmount, find?_eq_none] at h ⊢
  intro i hi hsub
  apply h i hi
  rw [suborsame_iff (mounts.get i).key.2 hplain.valid] at hsub
  rw [suborsame_iff (mounts.get i).key.2 hk.valid, map_append]
  exact hsub.trans (prefix_append _ _)

theorem has_subkey_above {t : Segment} (hk : Plain (k ++ [t]))
    (h : has_subkey mounts (k ++ [t]) none = true) : has_subkey mounts k none = true := by
  obtain ⟨hplain, -⟩ := plain_append.mp hk
  rw [has_subkey, any_eq_true] at h ⊢
  obtain ⟨m, hm, hsub⟩ := h
  refine ⟨m, hm, ?_⟩
  rw [Bool.and_eq_true, suborsame_iff hk.valid m.key.2, hk.path_eq, map_append] at hsub
  have hpre : k.map fold <+: m.key.val.map fold := (prefix_append _ _).trans hsub.1
  have hne : k.map fold ≠ m.key.val.map fold := by
    intro e
    have hle := hsub.1.length_le
    rw [← e] at hle
    rw [length_append, length_map, length_map, length_singleton] at hle
    omega
  rw [Bool.and_eq_true, suborsame_iff hplain.valid m.key.2, hplain.path_eq, compareto_lt hpre hne]
  exact ⟨hpre, rfl⟩

theorem find_mountpoint {key : UniConfKey} {i : Fin mounts.length}
    (h : findmount mounts key = some i) :
    ((finRange mounts.length).find? fun j =>
      decide (printable (mounts.get j).key = printable (mounts.get i).key)) =
        some i := by
  apply find?_of_imp h
  · simp
  · intro j hj
    have hkey : (mounts.get j).key.val = (mounts.get i).key.val :=
      printable_inj (mounts.get j).key.2 (mounts.get i).key.2 (mounts.get j).sliced
        (mounts.get i).sliced (by simpa using hj)
    have hsub := find?_some (p := fun i => (mounts.get i).key.val.suborsame key) h
    rwa [hkey]

def numbered (acc : Fin mounts.length → List UniConfPair) : List (UniGenMountPairs mounts) :=
  (List.finRange mounts.length).map fun i => ⟨i, acc i⟩

theorem batches_holds (mounts : MountList) : (batches mounts).Holds (numbered fun _ => []) := by
  have hadds : ∀ (l : List (Fin mounts.length)) (t : WvHashTable (UniGenMountPairs mounts)) l',
      t.Holds l' → (l.foldl (fun t i => t.add ⟨i, []⟩) t).Holds (l' ++ l.map fun i => ⟨i, []⟩) := by
    intro l
    induction l with
    | nil =>
      intro t l' ht
      simpa using ht
    | cons i l ih =>
      intro t l' ht
      have hnext := ih _ _ (ht.add ⟨i, []⟩)
      rwa [append_assoc] at hnext
  exact hadds _ _ [] (WvHashTable.Holds.empty _)

/-- The pairs that come to a mount. -/
def assigned (pairs : List UniConfPair) (i : Fin mounts.length) : List UniConfPair :=
  pairs.filterMap fun pair =>
    if findmount mounts pair.key = some i then some (trimmed (mounts.get i).key pair) else none

theorem addpair_holds {t : WvHashTable (UniGenMountPairs mounts)}
    {acc : Fin mounts.length → List UniConfPair} (ht : t.Holds (numbered acc))
    (pair : UniConfPair) : ∃ t', addpair mounts t pair = some t' ∧
      t'.Holds (numbered fun i => acc i ++ assigned [pair] i) := by
  unfold addpair
  cases h : findmount mounts pair.key with
  | none =>
    refine ⟨t, rfl, ?_⟩
    simpa [assigned, h] using ht
  | some i =>
    have hfirst := find_mountpoint h
    dsimp only
    have hfind : t.find (printable (mounts.get i).key) = some ⟨i, acc i⟩ := by
      rw [ht.find, numbered, find?_map]
      exact congrArg (Option.map _) hfirst
    rw [hfind]
    refine ⟨_, rfl, ?_⟩
    let add := fun data : UniGenMountPairs mounts => data.add mounts (trimmed (mounts.get i).key pair)
    have hupdate := ht.update (f := add) (fun _ => rfl) (printable (mounts.get i).key)
    have hbatch : modifyFirst (fun data : UniGenMountPairs mounts =>
        decide (get_key data = printable (mounts.get i).key)) add (numbered acc) =
          numbered fun j => acc j ++ assigned [pair] j := by
      apply modifyFirst_map hfirst (nodup_finRange _)
      · simp [assigned, h, add, UniGenMountPairs.add]
      · intro j hj
        simp [assigned, h, Ne.symm hj]
    rwa [hbatch] at hupdate

theorem foldlM_addpair {t : WvHashTable (UniGenMountPairs mounts)}
    {acc : Fin mounts.length → List UniConfPair} (ht : t.Holds (numbered acc))
    (pairs : List UniConfPair) : ∃ t', pairs.foldlM (addpair mounts) t = some t' ∧
      t'.Holds (numbered fun i => acc i ++ assigned pairs i) := by
  induction pairs generalizing t acc with
  | nil =>
    refine ⟨t, rfl, ?_⟩
    simpa [assigned] using ht
  | cons pair pairs ih =>
    obtain ⟨t', hadd, ht'⟩ := addpair_holds ht pair
    obtain ⟨t'', hrest, ht''⟩ := ih ht'
    refine ⟨t'', ?_, ?_⟩
    · rw [foldlM_cons, hadd]
      exact hrest
    · have happ : ∀ i : Fin mounts.length,
          assigned (pair :: pairs) i = assigned [pair] i ++ assigned pairs i :=
        fun i => filterMap_append (l := [pair])
      simpa [happ] using ht''

open UniGenMountPairs

theorem foldl_handover {l : List (UniGenMountPairs mounts)}
    (hnodup : (l.map mount).Nodup) (s : States mounts)
    {data : UniGenMountPairs mounts} (hdata : data ∈ l) :
    l.foldl (handover mounts) s data.mount =
      (mounts.get data.mount).gen.setv data.pairs (s data.mount) := by
  have hkeep : ∀ (l : List (UniGenMountPairs mounts)) (s : States mounts) i,
      i ∉ l.map mount → l.foldl (handover mounts) s i = s i := by
    intro l
    induction l with
    | nil => exact fun _ _ _ => rfl
    | cons d l ih =>
      intro s i hi
      rw [map_cons, mem_cons, not_or] at hi
      rw [foldl_cons, ih _ _ hi.2]
      exact Function.update_of_ne hi.1 _ _
  induction l generalizing s with
  | nil => cases hdata
  | cons d l ih =>
    obtain ⟨hd, hnodup⟩ := nodup_cons.mp hnodup
    rw [foldl_cons]
    rcases mem_cons.mp hdata with rfl | hmem
    · rw [hkeep _ _ _ hd]
      exact Function.update_self _ _ _
    · have hne : data.mount ≠ d.mount := fun e => hd (e ▸ mem_map_of_mem hmem)
      rw [ih hnodup _ hmem]
      congr 1
      exact Function.update_of_ne hne _ _

theorem sets_apply (pairs : List UniConfPair) (s : States mounts) (i : Fin mounts.length) :
    (gen mounts).setv_naive pairs s i =
      (mounts.get i).gen.setv_naive (assigned pairs i) (s i) := by
  induction pairs generalizing s with
  | nil => rfl
  | cons pair pairs ih =>
    rw [IUniConfGen.setv_naive_cons, ih]
    show IUniConfGen.setv_naive _ _ (set mounts pair.key pair.value s i) = _
    unfold set
    cases h : findmount mounts pair.key with
    | none => simp [assigned, h]
    | some j =>
      by_cases hij : j = i
      · subst hij
        simp [assigned, h, trimmed]
      · simp [assigned, h, hij, Ne.symm hij]

/-- `setv` hands every mounted generator the pairs that `set` would, in the same order. -/
theorem setv_eq_sets (mounts : MountList) (h : ∀ m ∈ mounts, m.gen.Iterates)
    (pairs : List UniConfPair) (s : States mounts) :
    setv mounts pairs s =
      some (pairs.foldl (fun s pair => set mounts pair.key pair.value s) s) := by
  obtain ⟨t, ht, hholds⟩ := foldlM_addpair (batches_holds mounts) pairs
  rw [setv, ht, Option.map_some, Option.some_inj]
  show _ = (gen mounts).setv_naive pairs s
  funext i
  have hmounts : ∀ acc : Fin mounts.length → List UniConfPair,
      (numbered acc).map mount = finRange mounts.length := by
    intro acc
    rw [numbered, map_map]
    exact map_id _
  have hperm := hholds.perm
  have hnodup : (t.toList.map mount).Nodup := by
    rw [(hperm.map _).nodup_iff, hmounts]
    exact nodup_finRange _
  have hmem : (⟨i, assigned pairs i⟩ : UniGenMountPairs mounts) ∈ t.toList := by
    rw [hperm.mem_iff, numbered, mem_map]
    exact ⟨i, mem_finRange i, by simp⟩
  calc _ = (mounts.get i).gen.setv (assigned pairs i) (s i) := foldl_handover hnodup s hmem
    _ = (mounts.get i).gen.setv_naive (assigned pairs i) (s i) := h _ (get_mem mounts i) _ _
    _ = _ := (sets_apply pairs s i).symm

/-- Of the pairs of `a/b/c`, `a/d` and `e` the first goes to what is mounted at `a/b`, the second
to what is mounted at `a`, and the third nowhere. -/
theorem setv_nested :
    let a : ValidKey := ⟨[[97]], by decide, by decide⟩
    let ab : ValidKey := ⟨[[97], [98]], by decide, by decide⟩
    let mounts : MountList := [⟨UniTempGen, UniTempGen.gen, ab, by decide⟩,
      ⟨UniTempGen, UniTempGen.gen, a, by decide⟩]
    let pairs : List UniConfPair := [⟨⟨[[97], [98], [99]], by decide, by decide⟩, some [49]⟩,
      ⟨⟨[[97], [100]], by decide, by decide⟩, some [50]⟩, ⟨⟨[[101]], by decide, by decide⟩, some [51]⟩]
    let s : States mounts := fun
      | ⟨0, _⟩ => UniTempGen.empty
      | ⟨1, _⟩ => UniTempGen.empty
    let t := pairs.foldl (fun s pair => set mounts pair.key pair.value s) s
    setv mounts pairs s = some t ∧ UniTempGen.get (t ⟨0, by decide⟩) [[99]] = some [49] ∧
      UniTempGen.get (t ⟨1, by decide⟩) [[100]] = some [50] ∧
      UniTempGen.get (t ⟨1, by decide⟩) [[101]] = none := by
  intro a ab mounts pairs s t
  have hgens : ∀ m ∈ mounts, m.gen.Iterates := by
    intro m hm
    simp only [mounts, mem_cons, not_mem_nil, or_false] at hm
    rcases hm with rfl | rfl <;> exact UniTempGen.gen_iterates
  exact ⟨setv_eq_sets mounts hgens pairs s, by decide, by decide, by decide⟩

end UniMountGen

end WvStreams
