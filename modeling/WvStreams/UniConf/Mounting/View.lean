import WvStreams.UniConf.Mounting.Refine

/-!
# What a mount table shows

The keys and values of a table as a partial map on paths (`view`). A call of a generator's `set`
announces every path at which the view changes (`announced_of_view_ne`). Where the generator owns
what it changes, the values that it announces are those shown (`view_of_announced`); so are those
of all that leads to a mount point, apart from the mount points (`makemount_makes`).
-/

namespace WvStreams

open Lib UniTempGen Mounts List Option UniConfKey

namespace UniTempMounts

open UniMountGen (trimkey)

def own (t : UniTempMounts) (p : List Segment) : Option UniTempMount :=
  t.find? fun m => m.key.val.path <+: p

noncomputable def view (t : UniTempMounts) : PathMap Segment Str := Mounts.look [] (mounts t)

def IsPoint (t : UniTempMounts) (p : List Segment) : Prop := ∃ m ∈ t, m.key.val.path = p

def Under (t : UniTempMounts) (p : List Segment) : Prop :=
  ∃ m ∈ t, Mounts.Above p m.key.val.path

theorem owner_eq (t : UniTempMounts) (p : List Segment) :
    owner (mounts t) p = (own t p).map mounted := find?_map ..

variable {t t' : UniTempMounts} {m : UniTempMount} {key : UniConfKey} {p : List Segment}

theorem findmount_eq (ht : Tidy t) (hkey : key.Valid) : findmount t key = own t key.path := by
  induction t with
  | nil => rfl
  | cons m t ih =>
    have hiff := (ht.plain m mem_cons_self).suborsame_iff hkey
    have hhead : m.key.val.suborsame key = decide (m.key.val.path <+: key.path) := by
      rw [Bool.eq_iff_iff, hiff, decide_eq_true_eq]
    have htail : t.find? (fun m => m.key.val.suborsame key) =
        t.find? fun m => m.key.val.path <+: key.path := ih ht.tail
    rw [findmount, own, find?_cons, find?_cons, hhead, htail]

theorem own_above (h : own t p = some m) : m.key.val.path <+: p := by
  simpa using find?_some h

theorem mem_of_own (h : own t p = some m) : m ∈ t := mem_of_find?_eq_some h

theorem own_eq_none : own t p = none ↔ ∀ m ∈ t, ¬ m.key.val.path <+: p := by
  rw [own, find?_eq_none]
  simp

theorem own_between {q : List Segment} (h : own t q = some m) (hm : m.key.val.path <+: p)
    (hp : p <+: q) : own t p = some m := by
  induction t with
  | nil => cases h
  | cons n t ih =>
    unfold own at h ⊢
    by_cases hn : n.key.val.path <+: q
    · rw [find?_cons_of_pos (by simpa using hn)] at h
      obtain rfl := some.inj h
      exact find?_cons_of_pos (by simpa using hm)
    · rw [find?_cons_of_neg (by simpa using hn)] at h
      rw [find?_cons_of_neg (by simpa using fun hpre => hn (hpre.trans hp))]
      exact ih h

theorem own_last (h : own t p.dropLast = some m) : own t p = some m ∨ IsPoint t p := by
  rcases eq_nil_or_concat p with rfl | ⟨q, s, rfl⟩
  · exact Or.inl h
  · rw [concat_eq_append] at h ⊢
    rw [dropLast_concat] at h
    cases hn : own t (q ++ [s]) with
    | none =>
      exact absurd ((own_above h).trans (prefix_append q [s]))
        (own_eq_none.mp hn m (mem_of_own h))
    | some n =>
      rcases prefix_concat_iff.mp (own_above hn) with hpoint | hpre
      · exact Or.inr ⟨n, mem_of_own hn, hpoint⟩
      · left
        rw [← h]
        exact (own_between hn hpre (prefix_append q [s])).symm

theorem view_own (h : own t p = some m) :
    view t p = m.temp.content (p.drop m.key.val.path.length) := by
  have howner := owner_eq t p
  rw [h] at howner
  exact look_some [] howner

theorem view_none (h : own t p = none) : view t p ≠ none ↔ Under t p := by
  have howner := owner_eq t p
  rw [h] at howner
  rw [view, look_none [] howner]
  constructor
  · rintro ⟨s, hs⟩
    obtain ⟨x, hx, hpre⟩ := (leads_iff howner s).mp hs
    obtain ⟨m, hm, rfl⟩ := mem_map.mp hx
    exact ⟨m, hm, .concat hpre⟩
  · rintro ⟨m, hm, habove⟩
    obtain ⟨s, hs⟩ := exists_child habove.1 habove.2
    exact ⟨s, (leads_iff howner s).mpr ⟨mounted m, mem_map_of_mem hm, hs⟩⟩

theorem view_none_value (h : own t p = none) : view t p = none ∨ view t p = some [] := by
  have howner := owner_eq t p
  rw [h] at howner
  unfold view look
  rw [howner]
  dsimp only [map_none]
  split_ifs
  · exact Or.inr rfl
  · exact Or.inl rfl

theorem view_congr_none (h : own t p = none) (h' : own t' p = none)
    (hunder : Under t p ↔ Under t' p) : view t p = view t' p := by
  by_cases hp : Under t p
  · rw [(view_none_value h).resolve_left ((view_none h).mpr hp),
      (view_none_value h').resolve_left ((view_none h').mpr (hunder.mp hp))]
  · rw [not_not.mp (mt (view_none h).mp hp), not_not.mp (mt (view_none h').mp (mt hunder.mpr hp))]

theorem get_eq_view (ht : Tidy t) (hkey : key.Plain) :
    get t key = view t key.path := get_eq_look ht hkey

theorem exists_mem_frames (h : frames t' = frames t) (P : Nat → MountPoint → Prop) :
    (∃ m ∈ t', P m.gen m.key) ↔ ∃ m ∈ t, P m.gen m.key := by
  have hmem : ∀ t : UniTempMounts, (∃ m ∈ t, P m.gen m.key) ↔ ∃ f ∈ frames t, P f.1 f.2 := by
    intro t
    simp [frames]
  rw [hmem, h, ← hmem]

theorem isPoint_congr (h : frames t' = frames t) (p : List Segment) :
    IsPoint t' p ↔ IsPoint t p := exists_mem_frames h fun _ key => key.val.path = p

theorem under_congr (h : frames t' = frames t) (p : List Segment) :
    Under t' p ↔ Under t p := exists_mem_frames h fun _ key => Above p key.val.path

theorem own_congr (h : frames t' = frames t) (p : List Segment) :
    (own t' p).map (fun m => (m.gen, m.key)) = (own t p).map (fun m => (m.gen, m.key)) := by
  have hfind : ∀ t : UniTempMounts, (own t p).map (fun m => (m.gen, m.key)) =
      (frames t).find? fun f => f.2.val.path <+: p := by
    intro t
    rw [frames, find?_map]
    rfl
  rw [hfind, hfind, h]

/-- The mount after a call of its generator's `set`. -/
def setmount (key : UniConfKey) (value : WvString) (m : UniTempMount) : UniTempMount :=
  { m with temp := (m.temp.set key value).1 }

theorem setgen_of_not_mem {gen : Nat} (h : ∀ m ∈ t, m.gen ≠ gen) (key : UniConfKey)
    (value : WvString) : setgen t gen key value = (t, []) := by
  induction t with
  | nil => rfl
  | cons m t ih =>
    obtain ⟨hm, ht⟩ := forall_mem_cons.mp h
    rw [setgen, if_neg hm, ih ht]

theorem setgen_eq (ht : Tidy t) (hm : m ∈ t) (key : UniConfKey) (value : WvString) :
    setgen t m.gen key value =
      (t.map fun n => if n.gen = m.gen then setmount key value n else n,
        (m.temp.set key value).2.map (gencallback m.key)) := by
  induction t with
  | nil => cases hm
  | cons n t ih =>
    have hne : ∀ n' ∈ t, n'.gen ≠ n.gen := by
      intro n' hn' he
      exact (nodup_cons.mp ht.distinct).1 (he ▸ mem_map_of_mem hn')
    rcases mem_cons.mp hm with rfl | hm
    · have hkeep : (t.map fun n => if n.gen = m.gen then setmount key value n else n) = t :=
        (map_congr_left fun n hn => if_neg (hne n hn)).trans (map_id t)
      rw [setgen, if_pos rfl, map_cons, if_pos rfl, hkeep]
      rfl
    · rw [setgen, if_neg (hne m hm).symm, map_cons, if_neg (hne m hm).symm, ih ht.tail hm]

theorem own_setgen (ht : Tidy t) (hm : m ∈ t) (key : UniConfKey) (value : WvString)
    (p : List Segment) :
    own (setgen t m.gen key value).1 p =
      (own t p).map fun n => if n.gen = m.gen then setmount key value n else n := by
  rw [setgen_eq ht hm, own, find?_map, own]
  congr 2
  funext n
  show decide ((if n.gen = m.gen then setmount key value n else n).key.val.path <+: p) = _
  split <;> rfl

theorem view_setgen_self (ht : Tidy t) (h : own t p = some m) (key : UniConfKey)
    (value : WvString) :
    view (setgen t m.gen key value).1 p =
      (m.temp.set key value).1.content (p.drop m.key.val.path.length) := by
  have hown := own_setgen ht (mem_of_own h) key value p
  rw [h, map_some, if_pos rfl] at hown
  exact view_own hown

theorem view_setgen_of_ne (ht : Tidy t) (hm : m ∈ t) (h : own t p ≠ some m) (key : UniConfKey)
    (value : WvString) : view (setgen t m.gen key value).1 p = view t p := by
  have hown := own_setgen ht hm key value p
  cases hp : own t p with
  | none =>
    rw [hp] at hown
    exact (view_congr_none hp hown (under_congr (frames_setgen _ _ _ _) p).symm).symm
  | some n =>
    have hne : n.gen ≠ m.gen := fun e => h (hp.trans (congrArg some (eq_of_gen ht (mem_of_own hp) hm e)))
    rw [hp, map_some, if_neg hne] at hown
    rw [view_own hown, view_own hp]

theorem path_gencallback (base : UniConfKey) (d : Delta) :
    (gencallback base d).key.path = base.path ++ d.key.path := path_concatKey _ _

theorem announced_of_view_ne (ht : Tidy t) (hm : m ∈ t) {value : WvString}
    (h : view t p ≠ view (setgen t m.gen key value).1 p) :
    ∃ d ∈ (setgen t m.gen key value).2, d.key.path = p := by
  have hp : own t p = some m := by
    by_contra hne
    exact h (view_setgen_of_ne ht hm hne key value).symm
  rw [view_own hp, view_setgen_self ht hp] at h
  obtain ⟨n, hn, hpath⟩ : ∃ n ∈ (m.temp.set key value).2.map Delta.note,
      n.1 = p.drop m.key.val.path.length := by
    by_contra hno
    exact h ((steps_set m.temp key value).eq_of_not_mem fun n hn he =>
      hno ⟨n, hn, he⟩).symm
  obtain ⟨d, hd, rfl⟩ := mem_map.mp hn
  rw [setgen_eq ht hm]
  refine ⟨gencallback m.key d, mem_map_of_mem hd, ?_⟩
  have hpath' : d.key.path = p.drop m.key.val.path.length := hpath
  rw [path_gencallback, hpath']
  exact prefix_iff_eq_append.mp (own_above hp)

theorem view_of_announced (ht : Tidy t) (hm : m ∈ t) {value : WvString} {d : Delta}
    (hd : d ∈ (setgen t m.gen key value).2) (hp : own t d.key.path = some m) :
    view (setgen t m.gen key value).1 d.key.path = d.value := by
  rw [setgen_eq ht hm] at hd
  obtain ⟨e, he, rfl⟩ := mem_map.mp hd
  rw [view_setgen_self ht hp, path_gencallback, drop_left]
  exact ((steps_set m.temp key value).value_of_mem (mem_map_of_mem he)).1

theorem announced_above (ht : Tidy t) (hm : m ∈ t) {value : Str} {d : Delta}
    (hd : d ∈ (setgen t m.gen key (some value)).2) :
    d.value ≠ none ∧ m.key.val.path <+: d.key.path ∧ d.key.path <+: m.key.val.path ++ key.path := by
  rw [setgen_eq ht hm] at hd
  obtain ⟨e, he, rfl⟩ := mem_map.mp hd
  rw [path_gencallback, prefix_append_right_inj]
  refine ⟨fun hnone => ?_, prefix_append _ _, ?_⟩
  · have hvalue := (mem_set he).2.mp hnone
    cases hvalue
  · obtain ⟨hv, hne⟩ := (steps_set m.temp key (some value)).value_of_mem
      (mem_map_of_mem he)
    by_contra hpre
    rw [content_set] at hv
    have hsame : refSet m.temp.content key (some value) e.key.path =
        m.temp.content e.key.path := by
      unfold refSet
      split
      · rfl
      · exact PathMap.assign_some_other [] _ value hpre
    exact hne (hsame.symm.trans hv)

theorem announced_below (ht : Tidy t) (hm : m ∈ t) {d : Delta}
    (hd : d ∈ (setgen t m.gen key none).2) :
    d.value = none ∧ m.key.val.path ++ key.path <+: d.key.path ∧
      m.temp.content key.path ≠ none := by
  rw [setgen_eq ht hm] at hd
  obtain ⟨e, he, rfl⟩ := mem_map.mp hd
  obtain ⟨hv, hne⟩ := (steps_set m.temp key none).value_of_mem (mem_map_of_mem he)
  have hnone : e.note.2 = none := (mem_set he).2.mpr rfl
  rw [hnone] at hne
  have hbelow : key.path <+: e.key.path := by
    by_contra hpre
    rw [content_set, hnone] at hv
    have hsame : refSet m.temp.content key none e.key.path =
        m.temp.content e.key.path := by
      rw [refSet, isSome_none, Bool.and_false]
      exact if_neg hpre
    exact hne (hsame.symm.trans hv)
  rw [path_gencallback, prefix_append_right_inj]
  refine ⟨hnone, hbelow, fun hmissing => hne ?_⟩
  obtain ⟨q, hq⟩ := hbelow
  show m.temp.content e.key.path = none
  rw [← hq]
  exact m.temp.content_closed _ q hmissing

/-- What is announced is what is new, save at mount points. -/
structure Makes (t : UniTempMounts) (ds : List Delta) (t' : UniTempMounts) : Prop where
  frames : frames t' = frames t
  keep : ∀ p, view t p ≠ none → view t' p = view t p
  shown : ∀ d ∈ ds, d.value ≠ none ∧ (view t' d.key.path = d.value ∨ IsPoint t' d.key.path)
  all : ∀ p, view t p ≠ view t' p → ∃ d ∈ ds, d.key.path = p

theorem Makes.refl (t : UniTempMounts) : Makes t [] t :=
  ⟨rfl, fun _ _ => rfl, nofun, fun _ hne => (hne rfl).elim⟩

theorem Makes.trans {t'' : UniTempMounts} {ds ds' : List Delta} (h : Makes t ds t')
    (h' : Makes t' ds' t'') : Makes t (ds ++ ds') t'' := by
  refine ⟨h'.frames.trans h.frames, fun p hp => ?_, fun d hd => ?_, fun p hp => ?_⟩
  · have hkeep := h.keep p hp
    rw [h'.keep p (hkeep ▸ hp), hkeep]
  · rcases mem_append.mp hd with hd | hd
    · obtain ⟨hvalue, hshown⟩ := h.shown d hd
      refine ⟨hvalue, hshown.imp (fun hv => ?_) (isPoint_congr h'.frames _).mpr⟩
      rw [h'.keep _ (hv ▸ hvalue), hv]
    · exact h'.shown d hd
  · by_cases hfirst : view t p = view t' p
    · obtain ⟨d, hd, hpath⟩ := h'.all p (hfirst ▸ hp)
      exact ⟨d, mem_append_right _ hd, hpath⟩
    · obtain ⟨d, hd, hpath⟩ := h.all p hfirst
      exact ⟨d, mem_append_left _ hd, hpath⟩

theorem Makes.point {ds : List Delta} (h : Makes t ds t') {d : Delta} (hvalue : d.value ≠ none)
    (hd : IsPoint t d.key.path) : Makes t (ds ++ [d]) t' := by
  refine ⟨h.frames, h.keep, fun e he => ?_, fun p hp => ?_⟩
  · rcases mem_append.mp he with he | he
    · exact h.shown e he
    · obtain rfl := mem_singleton.mp he
      exact ⟨hvalue, Or.inr ((isPoint_congr h.frames _).mpr hd)⟩
  · obtain ⟨e, he, hpath⟩ := h.all p hp
    exact ⟨e, mem_append_left _ he, hpath⟩

theorem setgen_makes (ht : Tidy t) (hm : m ∈ t) (hmissing : m.temp.content key.path = none)
    (value : Str) (hown : ∀ a, m.key.val.path <+: a → a <+: m.key.val.path ++ key.path →
      own t a = some m ∨ IsPoint t a) :
    Makes t (setgen t m.gen key (some value)).2 (setgen t m.gen key (some value)).1 := by
  refine ⟨frames_setgen _ _ _ _, fun p hp => ?_, fun d hd => ?_, fun p hp =>
    announced_of_view_ne ht hm hp⟩
  · by_cases hself : own t p = some m
    · rw [view_own hself] at hp ⊢
      rw [view_setgen_self ht hself, content_set, refSet]
      split
      · rfl
      · obtain ⟨v, hv⟩ := ne_none_iff_exists'.mp hp
        have hne : p.drop m.key.val.path.length ≠ key.path := fun e => hp (e ▸ hmissing)
        by_cases hpre : p.drop m.key.val.path.length <+: key.path
        · rw [PathMap.assign_some_ancestor [] _ value hpre hne, hv]
          rfl
        · exact PathMap.assign_some_other [] _ value hpre
    · exact view_setgen_of_ne ht hm hself key (some value)
  · obtain ⟨hvalue, habove, hbelow⟩ := announced_above ht hm hd
    refine ⟨hvalue, (hown _ habove hbelow).imp (fun hself => ?_) (isPoint_congr
      (frames_setgen _ _ _ _) _).mpr⟩
    exact view_of_announced ht hm hd hself

theorem append_trimkey (hm : m.key.val.Plain) (hkey : key.Plain) (h : m.key.val.path <+: key.path) :
    m.key.val.path ++ (trimkey m.key key).path = key.path := by
  rw [path_trimkey hm hkey.valid h]
  exact prefix_iff_eq_append.mp h

theorem makepoint_makes (ht : Tidy t) (hkey : key.Plain) :
    let r := if (get t key).isNone then set t key (some []) else (t, [])
    Makes t r.2 r.1 := by
  intro r
  by_cases hget : (get t key).isNone = true
  · have hr : r = set t key (some []) := if_pos hget
    rw [hr, set]
    cases hfound : findmount t key with
    | none => exact .refl t
    | some found =>
      rw [findmount_eq ht hkey.valid] at hfound
      have hplain := ht.plain found (mem_of_own hfound)
      have happ := append_trimkey hplain hkey (own_above hfound)
      apply setgen_makes ht (mem_of_own hfound)
      · rw [get_eq_view ht hkey, view_own hfound, isNone_iff_eq_none] at hget
        rw [← hget, ← happ, drop_left]
      · intro a habove hbelow
        rw [happ] at hbelow
        exact Or.inl (own_between hfound habove hbelow)
  · have hr : r = (t, []) := if_neg hget
    rw [hr]
    exact .refl t

theorem makepoints_makes (ht : Tidy t) {points : UniConfKey} (hpoints : points.Plain)
    (hkey : key.Plain) : Makes t (makepoints t points key).2 (makepoints t points key).1 := by
  induction key generalizing t points with
  | nil => exact .refl t
  | cons s key ih =>
    obtain ⟨hs, hkey⟩ := plain_cons.mp hkey
    have hnext : (points ++ [s]).Plain := hpoints.concat hs
    have hstep := makepoint_makes ht hnext
    rw [makepoints, append_name hpoints hs]
    exact hstep.trans (ih (ht.congr hstep.frames) hnext hkey)

theorem makemount_makes (ht : Tidy t) (hkey : key.Plain) :
    Makes t (makemount t key).2 (makemount t key).1 := by
  have hpoints := makepoints_makes ht plain_nil hkey
  have ht' := ht.congr hpoints.frames
  have hlast := hkey.removelast
  cases hfound : findmount (makepoints t [] key).1 key.removelast with
  | none =>
    simp only [makemount, hfound, append_nil]
    exact hpoints
  | some found =>
    by_cases hget : (found.temp.get (trimkey found.key key)).isNone = true
    · simp only [makemount, hfound, if_pos hget]
      apply hpoints.trans
      rw [findmount_eq ht' hlast.1.valid, hlast.2] at hfound
      have hplain := ht'.plain found (mem_of_own hfound)
      have hpre := (own_above hfound).trans (List.dropLast_prefix key.path)
      have happ := append_trimkey hplain hkey hpre
      apply setgen_makes ht' (mem_of_own hfound)
      · rwa [get_of_plain _ hkey.trimkey, isNone_iff_eq_none] at hget
      · intro a habove hbelow
        rw [happ] at hbelow
        by_cases hself : a = key.path
        · rw [hself]
          exact own_last hfound
        · have hlen := hbelow.length_le
          have hne : a.length ≠ key.path.length := fun e => hself (hbelow.eq_of_length e)
          have hfront := prefix_of_prefix_length_le hbelow (List.dropLast_prefix key.path)
            (by rw [length_dropLast]; omega)
          exact Or.inl (own_between hfound habove hfront)
    · simp only [makemount, hfound, if_neg hget, append_nil]
      exact hpoints

theorem get_makemount (ht : Tidy t) (hkey : key.Plain) (hne : key ≠ [])
    (hm : own t key.path = some m) : get (makemount t key).1 key ≠ none := by
  obtain ⟨hmounts, hframes⟩ := makemount_spec ht hkey
  have howns := own_congr hframes key.path
  rw [hm] at howns
  obtain ⟨n, hn, -⟩ := map_eq_some_iff.mp howns
  have howner := owner_eq (makemount t key).1 key.path
  rw [hn] at howner
  rw [get_eq_view (ht.congr hframes) hkey, view, look_some [] howner]
  rw [hmounts] at howner
  have hpath : key.path ≠ [] := by
    rw [hkey.path_eq]
    exact fun e => hne (map_eq_nil_iff.mp e)
  exact (reached_lead [] key.path (mounts t)).each _ hpath (prefix_refl _) _ howner

theorem remounts_makes (ht : Tidy t) (hkey : key.Plain) {ks : List UniConfKey}
    (hks : ∀ k ∈ ks, k.Plain ∧ IsPoint t k.path) :
    Makes t (remounts t key ks).2 (remounts t key ks).1 ∧
      ∀ k ∈ ks, Above key.path k.path → ∃ d ∈ (remounts t key ks).2, d.key.path = k.path := by
  induction ks generalizing t with
  | nil => exact ⟨.refl t, nofun⟩
  | cons k ks ih =>
    obtain ⟨⟨hk, hpoint⟩, hks⟩ := forall_mem_cons.mp hks
    have habove : (key.suborsame k && !key.same k) = true ↔ Above key.path k.path := by
      rw [Bool.and_eq_true, hkey.suborsame_iff hk.valid, Bool.not_eq_true', same,
        beq_eq_false_iff_ne, ← hkey.path_eq, ← hk.path_eq]
      rfl
    by_cases h : Above key.path k.path
    · have hmade := makemount_makes ht hk
      have hresult : remounts t key (k :: ks) =
          ((remounts (makemount t k).1 key ks).1, (makemount t k).2 ++
            [⟨k, get (makemount t k).1 k⟩] ++ (remounts (makemount t k).1 key ks).2) := by
        rw [remounts, if_pos (habove.mpr h)]
      have hne : k ≠ [] := by
        rintro rfl
        exact h.2 (prefix_nil.mp h.1)
      obtain ⟨m, hm⟩ : ∃ m, own t k.path = some m := by
        rw [← isSome_iff_exists, isSome_iff_ne_none, ne_eq, own_eq_none]
        intro hno
        obtain ⟨i, hi, hpath⟩ := hpoint
        exact hno i hi (hpath ▸ prefix_refl _)
      have hpointed := hmade.point (d := ⟨k, get (makemount t k).1 k⟩)
        (get_makemount ht hk hne hm) hpoint
      obtain ⟨hrest, hall⟩ := ih (ht.congr hmade.frames) fun k' hk' =>
        ⟨(hks k' hk').1, (isPoint_congr hmade.frames _).mpr (hks k' hk').2⟩
      rw [hresult]
      refine ⟨hpointed.trans hrest, forall_mem_cons.mpr ⟨fun _ => ?_, fun k' hk' h' => ?_⟩⟩
      · exact ⟨_, mem_append_left _ (mem_append_right _ mem_cons_self), rfl⟩
      · obtain ⟨d, hd, hpath⟩ := hall k' hk' h'
        exact ⟨d, mem_append_right _ hd, hpath⟩
    · have hresult : remounts t key (k :: ks) = remounts t key ks := by
        rw [remounts, if_neg fun hsub => h (habove.mp hsub)]
        rfl
      obtain ⟨hrest, hall⟩ := ih ht hks
      rw [hresult]
      exact ⟨hrest, forall_mem_cons.mpr ⟨fun h' => absurd h' h, hall⟩⟩

end UniTempMounts

end WvStreams
