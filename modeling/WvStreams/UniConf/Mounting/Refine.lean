import WvStreams.UniConf.Mounting.Table

/-!
# The table as mounted maps

The table seen as the maps that its generators hold (`UniTempMounts.mounts`), and what each
operation is to these: the mount found is the owner of the key, a call of `set` changes the
owner, and `makemount` makes the paths to its key.
-/

namespace WvStreams

open Lib Mounts List UniConfKey UniTempGen

namespace UniConfKey

variable {key base : UniConfKey}

theorem Valid.map_fold (h : key.Valid) :
    key.map fold = key.path ∨ key.map fold = key.path ++ [[]] := by
  rcases h.cases with hplain | ⟨k, -, hk, rfl⟩
  · exact Or.inl hplain.path_eq.symm
  · right
    rw [map_append, path_slash, hk.path_eq]
    rfl

theorem Plain.length_path (h : key.Plain) : key.path.length = key.length := by
  rw [h.path_eq, length_map]

theorem Plain.suborsame_iff (hbase : base.Plain) (hkey : key.Valid) :
    base.suborsame key = true ↔ base.path <+: key.path := by
  rw [UniConfKey.suborsame_iff hbase.valid hkey]
  rcases hkey.map_fold with hfold | hfold
  · rw [hfold]
  · rw [hfold]
    constructor
    · intro h
      refine (prefix_concat_iff.mp h).resolve_left fun e => hbase.not_mem_path ?_
      rw [e]
      exact mem_append_right _ mem_cons_self
    · exact fun h => h.trans (prefix_append _ _)

open UniConfKey

theorem Valid.below (hkey : key.Valid) (hbase : base.Plain) (h : Above key.path base.path) :
    (key.suborsame base && key.compareto base == .lt) = true := by
  rw [Bool.and_eq_true, suborsame_iff hkey hbase.valid, ← hbase.path_eq, beq_iff_eq]
  refine ⟨h.1, ?_⟩
  rcases hkey.map_fold with hfold | hfold
  · apply compareto_lt
    · rw [hfold, ← hbase.path_eq]
      exact h.1
    · rw [hfold, ← hbase.path_eq]
      exact h.2
  · unfold compareto
    rw [hfold, ← hbase.path_eq]
    obtain ⟨s, r, hr⟩ := exists_child h.1 h.2
    have hs : s ≠ [] := by
      rintro rfl
      apply hbase.not_mem_path
      rw [← hr]
      exact List.mem_append_left _ (List.mem_append_right _ List.mem_cons_self)
    rw [← hr, List.append_assoc]
    generalize key.path = k
    induction k with
    | nil =>
      obtain ⟨c, s, rfl⟩ := List.exists_cons_of_ne_nil hs
      rfl
    | cons t k ih =>
      have hself : compare t t = .eq := Std.ReflCmp.compare_self
      rw [List.cons_append, List.cons_append, List.compare_eq_compareLex,
        List.compareLex_cons_cons, hself]
      exact ih

theorem Plain.below_iff (hkey : key.Plain) (hbase : base.Plain) :
    (key.suborsame base && key.compareto base == .lt) = true ↔
      ∃ s, key.path ++ [s] <+: base.path := by
  constructor
  · intro h
    rw [Bool.and_eq_true, hkey.suborsame_iff hbase.valid, beq_iff_eq] at h
    apply exists_child h.1
    intro e
    have hcompare := h.2
    have hself : compare base.path base.path = .eq := Std.ReflCmp.compare_self
    rw [compareto, ← hkey.path_eq, ← hbase.path_eq, e, hself] at hcompare
    cases hcompare
  · rintro ⟨s, hs⟩
    exact hkey.valid.below hbase (.concat hs)

theorem path_trimkey (hbase : base.Plain) (hkey : key.Valid) (h : base.path <+: key.path) :
    (UniMountGen.trimkey base key).path = key.path.drop base.path.length := by
  rw [UniMountGen.trimkey, removefirstN, range, path_collapse, take_length, hbase.length_path]
  rcases hkey.cases with hplain | ⟨k, -, hk, rfl⟩
  · have hdrop : Plain (key.drop base.length) :=
      fun hmem => hplain (mem_of_mem_drop hmem)
    rw [hdrop.path_eq, hplain.path_eq, map_drop]
  · have hle : base.length ≤ k.length := by
      rw [← hbase.length_path, ← hk.length_path, ← path_slash (k := k)]
      exact h.length_le
    have hdrop : Plain (k.drop base.length) :=
      fun hmem => hk (mem_of_mem_drop hmem)
    rw [drop_append_of_le_length hle, path_slash, path_slash, hdrop.path_eq, hk.path_eq, map_drop]

theorem Plain.trimkey (hkey : key.Plain) : Plain (UniMountGen.trimkey base key) := by
  rw [UniMountGen.trimkey, hkey.removefirstN]
  exact fun hmem => hkey (mem_of_mem_drop hmem)

theorem Plain.removelast (h : key.Plain) :
    UniConfKey.Plain key.removelast ∧ UniConfKey.path key.removelast = key.path.dropLast := by
  have hplain : UniConfKey.Plain key.dropLast := fun hmem => h (mem_of_mem_dropLast hmem)
  rw [UniConfKey.removelast, hplain.collapse_eq]
  refine ⟨hplain, ?_⟩
  rw [hplain.path_eq, h.path_eq, map_dropLast]

theorem append_name {points : UniConfKey} (h : points.Plain) {s : Segment} (hs : s ≠ []) :
    points.append [s] = points ++ [s] := by
  have hfirst : first [s] = [s] := (plain_cons.mpr ⟨hs, plain_nil⟩ : Plain [s]).collapse_eq
  have happend := append_first h hs []
  rwa [hfirst] at happend

end UniConfKey

namespace UniTempMounts

open UniMountGen (trimkey)

def mounted (m : UniTempMount) : Mounted Segment Str := ⟨m.key.val.path, m.temp.content⟩

def mounts (t : UniTempMounts) : Mounts Segment Str := t.map mounted

def frames (t : UniTempMounts) : List (Nat × MountPoint) := t.map fun m => (m.gen, m.key)

/-- No mount point has a trailing slash, and each generator is mounted once. -/
structure Tidy (t : UniTempMounts) : Prop where
  plain : ∀ m ∈ t, m.key.val.Plain
  distinct : (t.map UniTempMount.gen).Nodup

theorem Tidy.tail {m : UniTempMount} {t : UniTempMounts} (h : Tidy (m :: t)) : Tidy t :=
  ⟨fun x hx => h.plain x (mem_cons_of_mem _ hx), (nodup_cons.mp h.distinct).2⟩

variable {t : UniTempMounts} {key : UniConfKey} {m found : UniTempMount}

theorem Tidy.congr {t' : UniTempMounts} (h : Tidy t) (hframes : frames t' = frames t) :
    Tidy t' := by
  constructor
  · intro m hm
    have hmem : (m.gen, m.key) ∈ frames t := hframes ▸ mem_map_of_mem hm
    obtain ⟨m', hm', he⟩ := mem_map.mp hmem
    rw [← (Prod.mk.inj he).2]
    exact h.plain m' hm'
  · have hgens : ∀ t : UniTempMounts, t.map UniTempMount.gen = (frames t).map Prod.fst :=
      fun t => (map_map (f := fun m : UniTempMount => (m.gen, m.key)) (g := Prod.fst)).symm
    rw [hgens, hframes, ← hgens]
    exact h.distinct

theorem Tidy.sublist {s : UniTempMounts} (h : Tidy t) (hs : s.Sublist t) : Tidy s :=
  ⟨fun m hm => h.plain m (hs.subset hm), h.distinct.sublist (hs.map _)⟩

theorem eq_of_gen (ht : Tidy t) {n : UniTempMount} (hm : m ∈ t) (hn : n ∈ t) (h : m.gen = n.gen) :
    m = n :=
  inj_on_of_nodup_map ht.distinct hm hn h

theorem find_gen (ht : Tidy t) (hm : m ∈ t) : t.find? (·.gen = m.gen) = some m := by
  obtain ⟨i, hi⟩ : ∃ i, t.find? (·.gen = m.gen) = some i :=
    Option.isSome_iff_exists.mp (find?_isSome.mpr ⟨m, hm, decide_eq_true rfl⟩)
  have hgen : i.gen = m.gen := by simpa using find?_some hi
  rw [hi, eq_of_gen ht (mem_of_find?_eq_some hi) hm hgen]

theorem split_gen {gen : Nat} (h : t.find? (·.gen = gen) = some m) :
    t = newer t gen ++ m :: older t gen := by
  induction t with
  | nil => cases h
  | cons n t ih =>
    unfold newer older
    by_cases hn : n.gen = gen
    · rw [find?_cons_of_pos (by simpa using hn)] at h
      obtain rfl := Option.some.inj h
      rw [takeWhile_cons_of_neg (by simpa using hn), dropWhile_cons_of_neg (by simpa using hn)]
      rfl
    · rw [find?_cons_of_neg (by simpa using hn)] at h
      rw [takeWhile_cons_of_pos (by simpa using hn), dropWhile_cons_of_pos (by simpa using hn)]
      exact congrArg _ (ih h)

theorem findmount_cons_pos (h : m.key.val.suborsame key = true) (t : UniTempMounts) :
    findmount (m :: t) key = some m :=
  find?_cons_of_pos h

theorem findmount_cons_neg (h : ¬ m.key.val.suborsame key = true) (t : UniTempMounts) :
    findmount (m :: t) key = findmount t key :=
  find?_cons_of_neg h

theorem findmount_above (ht : Tidy t) (hkey : key.Valid) (h : findmount t key = some found) :
    found.key.val.path <+: key.path := by
  have hfind : t.find? (fun m => m.key.val.suborsame key) = some found := h
  have hsub := find?_some hfind
  exact ((ht.plain found (mem_of_find?_eq_some h)).suborsame_iff hkey).mp hsub

theorem owner_mounts (ht : Tidy t) (hkey : key.Valid) :
    owner (mounts t) key.path = (findmount t key).map mounted := by
  induction t with
  | nil => rfl
  | cons m t ih =>
    have hiff := (ht.plain m mem_cons_self).suborsame_iff hkey
    by_cases h : m.key.val.path <+: key.path
    · rw [findmount_cons_pos (hiff.mpr h)]
      exact owner_cons_pos h _
    · rw [findmount_cons_neg fun hsub => h (hiff.mp hsub)]
      exact (owner_cons_neg h _).trans (ih ht.tail)

theorem findmount_ne_gen (ht : Tidy (m :: t)) : ∀ found ∈ findmount t key, m.gen ≠ found.gen := by
  rintro found hfound heq
  apply (nodup_cons.mp ht.distinct).1
  rw [heq]
  exact mem_map_of_mem (mem_of_find?_eq_some hfound)

theorem has_subkey_of_leads (ht : Tidy t) (hkey : key.Valid) {s : Segment}
    (h : Leads (mounts t) key.path s) : has_subkey t key (findmount t key) = true := by
  induction t with
  | nil => exact h.elim
  | cons m t ih =>
    have hm := ht.plain m mem_cons_self
    rw [has_subkey, Bool.or_eq_true]
    rcases h with h | ⟨hpre, h⟩
    · exact Or.inl (hkey.below hm (.concat h))
    · right
      have hsub : ¬ m.key.val.suborsame key = true := fun hsub =>
        hpre ((hm.suborsame_iff hkey).mp hsub)
      rw [findmount_cons_neg hsub, ih ht.tail h, Bool.and_true, Bool.not_eq_true',
        Option.any_eq_false]
      intro found hfound
      simpa using findmount_ne_gen ht found hfound

theorem has_subkey_iff (ht : Tidy t) (hkey : key.Plain) :
    has_subkey t key (findmount t key) = true ↔ ∃ s, Leads (mounts t) key.path s := by
  refine ⟨fun h => ?_, fun ⟨s, hs⟩ => has_subkey_of_leads ht hkey.valid hs⟩
  induction t with
  | nil => cases h
  | cons m t ih =>
    have hm := ht.plain m mem_cons_self
    rw [has_subkey, Bool.or_eq_true, hkey.below_iff hm] at h
    rcases h with ⟨s, hs⟩ | h
    · exact ⟨s, Or.inl hs⟩
    · by_cases hsub : m.key.val.suborsame key = true
      · rw [findmount_cons_pos hsub] at h
        simp at h
      · rw [findmount_cons_neg hsub, Bool.and_eq_true] at h
        obtain ⟨s, hs⟩ := ih ht.tail h.2
        exact ⟨s, Or.inr ⟨fun hpre => hsub ((hm.suborsame_iff hkey.valid).mpr hpre), hs⟩⟩

theorem get_trimkey (hm : m.key.val.Plain) (hkey : key.Plain) (h : m.key.val.path <+: key.path) :
    m.temp.get (trimkey m.key key) = (mounted m).value key.path := by
  rw [get_of_plain _ hkey.trimkey, path_trimkey hm hkey.valid h]
  rfl

theorem get_eq_look (ht : Tidy t) (hkey : key.Plain) : get t key = look [] (mounts t) key.path := by
  have howner := owner_mounts ht hkey.valid
  have hsub := has_subkey_iff ht hkey
  unfold get look
  cases h : findmount t key with
  | none =>
    rw [h] at howner hsub
    rw [howner]
    by_cases hleads : ∃ s, Leads (mounts t) key.path s
    · exact (if_pos (hsub.mpr hleads)).trans (if_pos hleads).symm
    · exact (if_neg fun h => hleads (hsub.mp h)).trans (if_neg hleads).symm
  | some found =>
    rw [h] at howner
    rw [howner]
    exact get_trimkey (ht.plain found (mem_of_find?_eq_some h)) hkey
      (findmount_above ht hkey.valid h)

@[simp] theorem frames_setgen (t : UniTempMounts) (gen : Nat) (key : UniConfKey)
    (value : WvString) : frames (setgen t gen key value).1 = frames t := by
  induction t with
  | nil => rfl
  | cons m t ih =>
    unfold setgen
    split
    · rfl
    · exact congrArg (cons (m.gen, m.key)) ih

@[simp] theorem frames_set (t : UniTempMounts) (key : UniConfKey) (value : WvString) :
    frames (set t key value).1 = frames t := by
  unfold set
  split
  · rfl
  · exact frames_setgen _ _ _ _

theorem grown_setgen (t : UniTempMounts) (gen : Nat) (key : UniConfKey) (value : Str) :
    Grown (mounts t) (mounts (setgen t gen key (some value)).1) := by
  induction t with
  | nil => exact .nil
  | cons m t ih =>
    unfold setgen
    split
    · refine .cons ⟨rfl, fun p hp => ?_⟩ (grown_refl _)
      show (m.temp.set key (some value)).1.content p ≠ none
      rw [content_set, refSet]
      split
      · exact hp
      · exact assign_some_ne_none [] _ value hp
    · exact .cons (.refl _) ih

theorem grown_set (t : UniTempMounts) (key : UniConfKey) (value : Str) :
    Grown (mounts t) (mounts (set t key (some value)).1) := by
  unfold set
  split
  · exact grown_refl _
  · exact grown_setgen _ _ _ _

theorem mounts_setgen (ht : Tidy t) (hkey : key.Valid) (h : findmount t key = some found)
    (k : UniConfKey) (value : WvString) :
    mounts (setgen t found.gen k value).1 =
      modify (fun m => { m with map := refSet m.map k value }) key.path
        (mounts t) := by
  induction t with
  | nil => cases h
  | cons m t ih =>
    have hiff := (ht.plain m mem_cons_self).suborsame_iff hkey
    by_cases hsub : m.key.val.suborsame key = true
    · rw [findmount_cons_pos hsub] at h
      obtain rfl := Option.some.inj h
      rw [setgen, if_pos rfl]
      refine Eq.trans ?_ (if_pos (hiff.mp hsub)).symm
      show ⟨m.key.val.path, (m.temp.set k value).1.content⟩ :: mounts t = _
      rw [content_set]
      rfl
    · rw [findmount_cons_neg hsub] at h
      rw [setgen, if_neg (findmount_ne_gen ht found h)]
      refine Eq.trans ?_ (if_neg fun hpre => hsub (hiff.mpr hpre)).symm
      exact congrArg _ (ih ht.tail h)

theorem mounts_store (ht : Tidy t) (hkey : key.Valid) (h : findmount t key = some found)
    {k : UniConfKey} (hk : k.Valid) (hpre : found.key.val.path <+: k.path) {value : WvString}
    (hvalue : k.Plain ∨ value = none) :
    mounts (setgen t found.gen (trimkey found.key k) value).1 =
      modify (Mounted.store [] k.path value) key.path (mounts t) := by
  rw [mounts_setgen ht hkey h]
  apply modify_congr
  intro o ho
  rw [owner_mounts ht hkey, h] at ho
  obtain rfl := Option.some.inj ho
  have hslash : ((trimkey found.key k).hastrailingslash && value.isSome) = false := by
    rcases hvalue with hplain | rfl
    · rw [hplain.trimkey.not_slash, Bool.false_and]
    · exact Bool.and_false _
  have hplain := ht.plain found (mem_of_find?_eq_some h)
  simp only [refSet, hslash, path_trimkey hplain hk hpre]
  rfl

theorem mounts_set_none (ht : Tidy t) (hkey : key.Valid) :
    mounts (set t key none).1 =
      modify (Mounted.store [] key.path none) key.path (mounts t) := by
  unfold set
  cases h : findmount t key with
  | none =>
    have howner := owner_mounts ht hkey
    rw [h] at howner
    exact (modify_of_none _ howner).symm
  | some found =>
    exact mounts_store ht hkey h hkey (findmount_above ht hkey h) (Or.inr rfl)

theorem mounts_ensure (ht : Tidy t) (hkey : key.Plain) (h : findmount t key = some found)
    {k : UniConfKey} (hk : k.Plain) (hpre : key.path <+: k.path) :
    mounts (if (found.temp.get (trimkey found.key k)).isNone then
      setgen t found.gen (trimkey found.key k) (some []) else (t, [])).1 =
        ensure [] key.path k.path (mounts t) := by
  have hfound := (findmount_above ht hkey.valid h).trans hpre
  have hplain := ht.plain found (mem_of_find?_eq_some h)
  have howner := owner_mounts ht hkey.valid
  rw [h] at howner
  rw [ensure, howner, get_trimkey hplain hk hfound]
  dsimp only [Option.map_some]
  split
  · exact mounts_store ht hkey.valid h hk.valid hfound (Or.inl hk)
  · rfl

theorem mounts_ensure_none (ht : Tidy t) (hkey : key.Plain) (h : findmount t key = none)
    (k : List Segment) : mounts t = ensure [] key.path k (mounts t) := by
  have howner := owner_mounts ht hkey.valid
  rw [h] at howner
  rw [ensure, howner]
  rfl

theorem makepoint_spec (ht : Tidy t) (hkey : key.Plain) :
    let r := if (get t key).isNone then set t key (some []) else (t, [])
    mounts r.1 = ensure [] key.path key.path (mounts t) ∧ frames r.1 = frames t := by
  constructor
  · unfold get set
    cases h : findmount t key with
    | none =>
      rw [ite_self]
      exact mounts_ensure_none ht hkey h _
    | some found => exact mounts_ensure ht hkey h hkey (prefix_refl _)
  · split
    · exact frames_set _ _ _
    · rfl

theorem makepoints_spec (ht : Tidy t) {points : UniConfKey} (hpoints : points.Plain)
    (hkey : key.Plain) :
    mounts (makepoints t points key).1 = Mounts.points [] points.path key.path (mounts t) ∧
      frames (makepoints t points key).1 = frames t := by
  induction key generalizing t points with
  | nil => exact ⟨rfl, rfl⟩
  | cons s key ih =>
    obtain ⟨hs, hkey⟩ := plain_cons.mp hkey
    have hnext : (points ++ [s]).Plain := hpoints.concat hs
    obtain ⟨hmounts, hframes⟩ := makepoint_spec ht hnext
    obtain ⟨hmounts', hframes'⟩ := ih (ht.congr hframes) hnext hkey
    rw [makepoints, append_name hpoints hs]
    refine ⟨hmounts'.trans ?_, hframes'.trans hframes⟩
    rw [hmounts, path_cons_of_ne hs, Mounts.points, path_concat _ hs rfl]

theorem makemount_spec (ht : Tidy t) (hkey : key.Plain) :
    mounts (makemount t key).1 = Mounts.lead [] key.path (mounts t) ∧
      frames (makemount t key).1 = frames t := by
  obtain ⟨hmounts, hframes⟩ := makepoints_spec ht plain_nil hkey
  have ht' := ht.congr hframes
  have hlast := hkey.removelast
  have hlead : Mounts.lead [] key.path (mounts t) =
      Mounts.ensure [] key.removelast.path key.path (mounts (makepoints t [] key).1) := by
    rw [hlast.2, hmounts]
    rfl
  rw [hlead]
  unfold makemount
  dsimp only
  cases h : findmount (makepoints t [] key).1 key.removelast with
  | none => exact ⟨mounts_ensure_none ht' hlast.1 h _, hframes⟩
  | some found =>
    constructor
    · apply mounts_ensure ht' hlast.1 h hkey
      rw [hlast.2]
      exact dropLast_prefix _
    · dsimp only
      split
      · exact (frames_setgen _ _ _ _).trans hframes
      · exact hframes

end UniTempMounts

end WvStreams
