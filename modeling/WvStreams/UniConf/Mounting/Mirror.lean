import WvStreams.Lib.Machine
import WvStreams.UniConf.Mounting.View

/-!
# Mirrors of a mount table

A mirror takes each announcement down: a removal with all below its key, a value at its key
alone, and for a value at a mount point all that is shown below it. Operations that are `Heard`
keep it like the view: what they announce is what they change there, and what they change is
announced.
-/

namespace WvStreams

open Lib UniConfKey Mounts UniTempGen List

namespace UniTempMounts

open UniMountGen (trimkey)

/-! ## Mirrors -/

/-- One announcement, dispatched while the table is `t`. -/
def hear (t : UniTempMounts) (m : PathMap Segment Str) (d : Delta) : PathMap Segment Str :=
  match d.value with
  | none => m.prune d.key.path
  | some v =>
    if t.any fun i => i.key.val.path == d.key.path then
      fun p => if d.key.path <+: p then get t p else m p
    else m.put d.key.path v

def follow (m : PathMap Segment Str) (ds : List Dispatch) : PathMap Segment Str :=
  ds.foldl (fun m d => d.deltas.foldl (hear d.table) m) m

/-- An operation of the table, or a call of `set` of one of its generators by another. -/
inductive Event where
  | op (op : Op)
  | change (gen : Nat) (key : ValidKey) (value : WvString)

def event (t : UniTempMounts) : Event → Option (UniTempMounts × List Dispatch)
  | .op op => step t op
  | .change gen key value =>
    let (t, ds) := setgen t gen key value
    some (t, [⟨ds, t⟩])

def mirror : Machine (UniTempMounts × PathMap Segment Str) Event (List Dispatch) where
  step s e := (event s.1 e).map fun r => ((r.1, follow s.2 r.2), r.2)

def Follows (s : UniTempMounts × PathMap Segment Str) : Prop :=
  ∀ key : UniConfKey, key.Plain → s.2 key.path = get s.1 key

theorem get_path {t : UniTempMounts} (ht : Tidy t) {key : UniConfKey} (hkey : key.Plain) :
    get t key.path = view t key.path := by
  obtain ⟨hplain, hpath⟩ := hkey.map_fold
  rw [← hkey.path_eq] at hplain hpath
  rw [get_eq_view ht hplain, hpath]

theorem follows_iff {t : UniTempMounts} (ht : Tidy t) {m : PathMap Segment Str} :
    Follows (t, m) ↔ ∀ key : UniConfKey, key.Plain → m key.path = view t key.path := by
  apply forall_congr'
  intro key
  apply imp_congr_right
  intro hkey
  rw [get_eq_view ht hkey]

/-! ## What is heard for one key -/

section

variable {t : UniTempMounts} {key : UniConfKey} {d : Delta}

theorem hear_none (h : d.value = none) (m : PathMap Segment Str) (p : List Segment) :
    hear t m d p = if d.key.path <+: p then none else m p := by
  rw [hear, h]
  rfl

theorem hear_of_not_below (h : ¬ d.key.path <+: key.path) (m : PathMap Segment Str) :
    hear t m d key.path = m key.path := by
  unfold hear
  cases d.value with
  | none => exact if_neg h
  | some v =>
    split
    · exact if_neg h
    · have hne : key.path ≠ d.key.path := fun he => h (he ▸ prefix_refl _)
      exact if_neg hne

theorem hear_point (ht : Tidy t) (hkey : key.Plain) (hvalue : d.value ≠ none)
    (hpoint : IsPoint t d.key.path) (m : PathMap Segment Str) :
    hear t m d key.path = if d.key.path <+: key.path then view t key.path else m key.path := by
  obtain ⟨v, hv⟩ := Option.ne_none_iff_exists'.mp hvalue
  have hany : (t.any fun i => i.key.val.path == d.key.path) = true := by
    rw [any_eq_true]
    obtain ⟨i, hi, hpath⟩ := hpoint
    exact ⟨i, hi, beq_iff_eq.mpr hpath⟩
  unfold hear
  rw [hv]
  dsimp only
  rw [if_pos hany, get_path ht hkey]

theorem hear_shown (ht : Tidy t) (hkey : key.Plain) (hvalue : d.value ≠ none)
    (hshown : d.key.path = key.path → view t d.key.path = d.value ∨ IsPoint t d.key.path)
    (m : PathMap Segment Str) :
    (hear t m d key.path = m key.path ∨ hear t m d key.path = view t key.path) ∧
      (d.key.path = key.path → hear t m d key.path = view t key.path) := by
  by_cases hpoint : IsPoint t d.key.path
  · rw [hear_point ht hkey hvalue hpoint]
    constructor
    · split
      · exact .inr rfl
      · exact .inl rfl
    · exact fun he => if_pos (he ▸ prefix_refl _)
  · obtain ⟨v, hv⟩ := Option.ne_none_iff_exists'.mp hvalue
    have hany : ¬ (t.any fun i => i.key.val.path == d.key.path) = true := by
      rw [any_eq_true]
      rintro ⟨i, hi, hpath⟩
      exact hpoint ⟨i, hi, beq_iff_eq.mp hpath⟩
    have hput : hear t m d key.path = if key.path = d.key.path then some v else m key.path := by
      unfold hear
      rw [hv]
      dsimp only
      rw [if_neg hany]
      rfl
    have hself : key.path = d.key.path → some v = view t key.path := by
      intro he
      rw [he, (hshown he.symm).resolve_right hpoint, hv]
    rw [hput]
    constructor
    · split
      · next he => exact .inr (hself he)
      · exact .inl rfl
    · intro he
      rw [if_pos he.symm, hself he.symm]

end

variable {mir : PathMap Segment Str} {p : List Segment} {m : UniTempMount} {value : WvString}

variable {t : UniTempMounts}

theorem foldl_hear_eq {ds : List Delta} {m : PathMap Segment Str}
    {w : WvString} (hall : ∀ d ∈ ds, ∀ m, hear t m d p = m p ∨ hear t m d p = w)
    (h : m p = w ∨ ∃ d ∈ ds, ∀ m, hear t m d p = w) : ds.foldl (hear t) m p = w := by
  induction ds generalizing m with
  | nil => exact h.resolve_right fun ⟨_, hd, _⟩ => not_mem_nil hd
  | cons d ds ih =>
    obtain ⟨hd, hall⟩ := forall_mem_cons.mp hall
    rw [foldl_cons]
    apply ih hall
    rcases h with h | ⟨e, he, htold⟩
    · exact .inl ((hd m).elim (fun hkeep => hkeep.trans h) id)
    · rcases mem_cons.mp he with rfl | he
      · exact .inl (htold m)
      · exact .inr ⟨e, he, htold⟩

/-! ## Calls of a generator's `set` -/

variable {key : UniConfKey}

theorem follows_setgen (ht : Tidy t) (hm : m ∈ t) {value : Str} (hown : ∀ a, m.key.val.path <+: a →
      a <+: m.key.val.path ++ key.path → own t a = some m ∨ IsPoint t a) (h : Follows (t, mir)) :
    let r := setgen t m.gen key (some value)
    Follows (r.1, r.2.foldl (hear r.1) mir) := by
  intro r
  have hr : Tidy r.1 := ht.congr (frames_setgen _ _ _ _)
  rw [follows_iff ht] at h
  rw [follows_iff hr]
  intro k hk
  have hshown : ∀ d ∈ r.2, d.value ≠ none ∧
      (view r.1 d.key.path = d.value ∨ IsPoint r.1 d.key.path) := by
    intro d hd
    obtain ⟨hvalue, habove, hbelow⟩ := announced_above ht hm hd
    refine ⟨hvalue, (hown _ habove hbelow).imp (view_of_announced ht hm hd) ?_⟩
    exact (isPoint_congr (frames_setgen _ _ _ _) _).mpr
  apply foldl_hear_eq
  · exact fun d hd m => (hear_shown hr hk (hshown d hd).1 (fun _ => (hshown d hd).2) m).1
  · by_cases hsame : view t k.path = view r.1 k.path
    · exact .inl ((h k hk).trans hsame)
    · obtain ⟨d, hd, hpath⟩ := announced_of_view_ne ht hm hsame
      exact .inr ⟨d, hd, fun m => (hear_shown hr hk (hshown d hd).1 (fun _ => (hshown d hd).2) m).2 hpath⟩

theorem leads_of_own {a : List Segment} {n : UniTempMount} (hpre : a <+: p)
    (h : own t p = some n) (habove : Above a n.key.val.path) : ∃ s, Leads (mounts t) a s := by
  obtain ⟨s, hs⟩ := exists_child habove.1 habove.2
  refine ⟨s, ?_⟩
  induction t with
  | nil => cases h
  | cons m t ih =>
    unfold own at h
    by_cases hm : m.key.val.path <+: p
    · rw [find?_cons_of_pos (by simpa using hm)] at h
      obtain rfl := Option.some.inj h
      exact .inl hs
    · rw [find?_cons_of_neg (by simpa using hm)] at h
      exact .inr ⟨fun hma => hm (hma.trans hpre), ih h⟩

theorem view_removed (ht : Tidy t) (hm : m ∈ t)
    (hleads : ∀ s, ¬ Leads (mounts t) (m.key.val.path ++ key.path) s)
    (hown : own t (m.key.val.path ++ key.path) = some m ∨
      view t (m.key.val.path ++ key.path) = none) (hp : m.key.val.path ++ key.path <+: p) :
    view (setgen t m.gen key none).1 p = none := by
  cases hn : own t p with
  | none => exact absurd ((prefix_append _ _).trans hp) (own_eq_none.mp hn m hm)
  | some n =>
    have hself : own t (m.key.val.path ++ key.path) = some n := by
      rcases prefix_or_prefix_of_prefix (own_above hn) hp with habove | hbelow
      · exact own_between hn habove hp
      · by_cases he : m.key.val.path ++ key.path = n.key.val.path
        · exact own_between hn (he ▸ prefix_refl _) hp
        · obtain ⟨s, hs⟩ := leads_of_own hp hn ⟨hbelow, he⟩
          exact absurd hs (hleads s)
    by_cases hnm : n = m
    · subst hnm
      rw [view_setgen_self ht hn, content_set, refSet, Option.isSome_none, Bool.and_false]
      obtain ⟨q, rfl⟩ := hp
      rw [append_assoc, drop_left]
      exact if_pos (prefix_append _ _)
    · have hne : own t p ≠ some m := fun e => hnm (Option.some.inj (hn.symm.trans e))
      have hnone := hown.resolve_left fun e => hnm (Option.some.inj (hself.symm.trans e))
      rw [view_setgen_of_ne ht hm hne, view_own hn]
      rw [view_own hself] at hnone
      obtain ⟨q, rfl⟩ := hp
      rw [drop_append_of_le_length (own_above hself).length_le]
      exact n.temp.content_closed _ q hnone

theorem follows_setgen_none (ht : Tidy t) (hm : m ∈ t)
    (hleads : ∀ s, ¬ Leads (mounts t) (m.key.val.path ++ key.path) s)
    (hown : own t (m.key.val.path ++ key.path) = some m ∨
      view t (m.key.val.path ++ key.path) = none) (h : Follows (t, mir)) :
    let r := setgen t m.gen key none
    Follows (r.1, r.2.foldl (hear r.1) mir) := by
  intro r
  rw [follows_iff ht] at h
  rw [follows_iff (ht.congr (frames_setgen _ _ _ _))]
  intro k hk
  have htold : ∀ d ∈ r.2, d.key.path <+: k.path → ∀ m, hear r.1 m d k.path = view r.1 k.path := by
    intro d hd hpre mir'
    obtain ⟨hvalue, hbelow, -⟩ := announced_below ht hm hd
    rw [hear_none hvalue, if_pos hpre]
    exact (view_removed ht hm hleads hown (hbelow.trans hpre)).symm
  apply foldl_hear_eq
  · intro d hd mir'
    by_cases hpre : d.key.path <+: k.path
    · exact .inr (htold d hd hpre mir')
    · rw [hear_none (announced_below ht hm hd).1, if_neg hpre]
      exact .inl rfl
  · by_cases hsame : view t k.path = view r.1 k.path
    · exact .inl ((h k hk).trans hsame)
    · obtain ⟨d, hd, hpath⟩ := announced_of_view_ne ht hm hsame
      exact .inr ⟨d, hd, htold d hd (hpath ▸ prefix_refl _)⟩

/-- The call changes nothing. -/
def Idle (g : UniTempGen) (key : UniConfKey) : WvString → Prop
  | none => g.content key.path = none
  | some value => key.hastrailingslash = true ∨ g.content key.path = some value

theorem refSet_of_idle {g : UniTempGen} (h : Idle g key value) :
    refSet g.content key value = g.content := by
  unfold refSet
  cases value with
  | none =>
    rw [Option.isSome_none, Bool.and_false]
    exact g.content_closed.prune_of_none h
  | some value =>
    rw [Option.isSome_some, Bool.and_true]
    rcases h with h | h
    · rw [if_pos h]
    · split
      · rfl
      · rw [PathMap.assign_of_ancestors [] fun p hp _ hnone => ?_, ← h, Function.update_eq_self]
        obtain ⟨q, hq⟩ := hp
        rw [← hq, g.content_closed p q hnone] at h
        cases h

theorem follows_idle (ht : Tidy t) (hm : m ∈ t)
    (hidle : Idle m.temp key value) (h : Follows (t, mir)) : let r := setgen t m.gen key value
    Follows (r.1, r.2.foldl (hear r.1) mir) := by
  intro r
  have hnil : r.2 = [] := by
    rw [eq_nil_iff_forall_not_mem]
    intro d hd
    have hd' : d ∈ (setgen t m.gen key value).2 := hd
    rw [setgen_eq ht hm] at hd'
    obtain ⟨e, he, -⟩ := mem_map.mp hd'
    obtain ⟨hv, hne⟩ := (steps_set m.temp key value).value_of_mem
      (mem_map_of_mem he)
    rw [content_set, refSet_of_idle hidle] at hv
    exact hne hv
  rw [follows_iff ht] at h
  rw [hnil, follows_iff (ht.congr (frames_setgen _ _ _ _))]
  intro k hk
  rw [foldl_nil, h k hk]
  by_contra hne
  obtain ⟨d, hd, -⟩ := announced_of_view_ne ht hm hne
  have hd' : d ∈ r.2 := hd
  rw [hnil] at hd'
  cases hd'

/-! ## Mounting and unmounting -/

/-- Every key above this one belongs to a mount, or is shown for a mount below it. -/
def Covered (t : UniTempMounts) (key : UniConfKey) : Prop :=
  ∀ n < key.length, (findmount t (key.take n)).isSome = true ∨ has_subkey t (key.take n) none = true

theorem under_of_leads {s : Segment} (h : Leads (mounts t) p s) : Under t p := by
  induction t with
  | nil => exact h.elim
  | cons m t ih =>
    rcases h with h | ⟨-, h⟩
    · exact ⟨m, mem_cons_self, .concat h⟩
    · obtain ⟨n, hn, habove⟩ := ih h
      exact ⟨n, mem_cons_of_mem m hn, habove⟩

theorem Covered.under (ht : Tidy t) (hkey : key.Plain)
    (h : Covered t key) (hp : Above p key.path) (hown : own t p = none) : Under t p := by
  have hlen : p.length < key.length := by
    rw [← hkey.length_path]
    exact lt_of_le_of_ne hp.1.length_le fun e => hp.2 (hp.1.eq_of_length e)
  have htake : Plain (key.take p.length) := fun hmem => hkey (mem_of_mem_take hmem)
  have hpath : path (key.take p.length) = p := by
    rw [htake.path_eq, map_take, ← hkey.path_eq]
    exact (prefix_iff_eq_take.mp hp.1).symm
  have hfind : findmount t (key.take p.length) = none := by
    rw [findmount_eq ht htake.valid, hpath, hown]
  have hsub := has_subkey_iff ht htake
  rw [hfind, hpath] at hsub
  rcases h p.length hlen with hsome | hnone
  · rw [hfind] at hsome
    cases hsome
  · obtain ⟨s, hs⟩ := hsub.mp hnone
    exact under_of_leads hs

theorem view_insert {xs ys : UniTempMounts} {m : UniTempMount} {p : List Segment}
    (hm : ¬ m.key.val.path <+: p)
    (hunder : own (xs ++ ys) p = none → Above p m.key.val.path → Under (xs ++ ys) p) :
    view (xs ++ m :: ys) p = view (xs ++ ys) p := by
  have hown : own (xs ++ m :: ys) p = own (xs ++ ys) p := by
    unfold own
    rw [find?_append, find?_append, find?_cons_of_neg (by simpa using hm)]
  cases h : own (xs ++ ys) p with
  | none =>
    apply view_congr_none (hown.trans h) h
    constructor
    · rintro ⟨n, hn, habove⟩
      rw [mem_append, mem_cons] at hn
      rcases hn with hn | rfl | hn
      · exact ⟨n, mem_append_left ys hn, habove⟩
      · exact hunder h habove
      · exact ⟨n, mem_append_right xs hn, habove⟩
    · rintro ⟨n, hn, habove⟩
      refine ⟨n, ?_, habove⟩
      rw [mem_append, mem_cons]
      exact (mem_append.mp hn).imp id Or.inr
  | some n => rw [view_own (hown.trans h), view_own h]

theorem follows_mounted (ht : Tidy t) {key : MountPoint} {gen : Nat}
    {temp : UniTempGen} (hkey : key.val.Plain) (hnew : ∀ m ∈ t, m.gen ≠ gen)
    (hcovered : Covered t key) {mir : PathMap Segment Str} (h : Follows (t, mir)) :
    let r := makemount t key
    let t' : UniTempMounts := ⟨gen, temp, key⟩ :: r.1
    let held : List Delta := ⟨key, none⟩ :: r.2 ++ [⟨key, get t' key⟩]
    Tidy t' ∧ Follows (t', held.foldl (hear t') mir) := by
  intro r t' held
  have hmade := makemount_makes ht hkey
  have hr : Tidy r.1 := ht.congr hmade.frames
  have ht' : Tidy t' := by
    constructor
    · exact forall_mem_cons.mpr ⟨hkey, hr.plain⟩
    · refine nodup_cons.mpr ⟨fun hmem => ?_, hr.distinct⟩
      obtain ⟨m, hm, he⟩ := mem_map.mp hmem
      have hno : ¬ ∃ m ∈ r.1, m.gen = gen := by
        rw [exists_mem_frames hmade.frames fun g _ => g = gen]
        exact fun ⟨m, hm, he⟩ => hnew m hm he
      exact hno ⟨m, hm, he⟩
  refine ⟨ht', ?_⟩
  rw [follows_iff ht] at h
  rw [follows_iff ht']
  intro k hk
  rw [foldl_append, foldl_cons, foldl_cons, foldl_nil]
  by_cases hpre : key.val.path <+: k.path
  · -- below the mount point all is read again, or nothing is there
    have hown : own t' k.path = some ⟨gen, temp, key⟩ :=
      find?_cons_of_pos (by simpa using hpre)
    have hself : own t' key.val.path = some ⟨gen, temp, key⟩ :=
      find?_cons_of_pos (by simp)
    cases hget : get t' key with
    | none =>
      rw [hear_none rfl, if_pos hpre]
      rw [get_eq_view ht' hkey, view_own hself, drop_length] at hget
      rw [view_own hown]
      exact (temp.content_closed [] _ hget).symm
    | some v =>
      have hpoint : IsPoint t' key.val.path := ⟨⟨gen, temp, key⟩, mem_cons_self, rfl⟩
      exact (hear_point (d := ⟨key, some v⟩) ht' hk (Option.some_ne_none v) hpoint _).trans
        (if_pos hpre)
  · have hsame : ∀ p, ¬ key.val.path <+: p → view t' p = view r.1 p := by
      intro p hp
      refine @view_insert [] r.1 ⟨gen, temp, key⟩ p hp ?_
      intro hnone habove
      rw [nil_append] at hnone ⊢
      rw [under_congr hmade.frames]
      apply hcovered.under ht hkey habove
      have howns := own_congr hmade.frames p
      rw [hnone] at howns
      exact Option.map_eq_none_iff.mp howns.symm
    rw [hear_of_not_below hpre]
    apply foldl_hear_eq
    · intro d hd mir'
      obtain ⟨hvalue, hshown⟩ := hmade.shown d hd
      refine (hear_shown ht' hk hvalue (fun he => ?_) mir').1
      rw [hsame _ (he ▸ hpre)]
      exact hshown.imp id fun ⟨i, hi, hpath⟩ => ⟨i, mem_cons_of_mem _ hi, hpath⟩
    · rw [hear_none rfl, if_neg hpre, h k hk, hsame _ hpre]
      by_cases heq : view t k.path = view r.1 k.path
      · exact .inl heq
      · obtain ⟨d, hd, hpath⟩ := hmade.all _ heq
        obtain ⟨hvalue, hshown⟩ := hmade.shown d hd
        refine .inr ⟨d, hd, fun mir' => ?_⟩
        rw [← hsame _ hpre]
        refine (hear_shown ht' hk hvalue (fun he => ?_) mir').2 hpath
        rw [hsame _ (he ▸ hpre)]
        exact hshown.imp id fun ⟨i, hi, hpath⟩ => ⟨i, mem_cons_of_mem _ hi, hpath⟩

theorem exists_mount_below {k : List Segment} (hnone : view t k = none)
    (hpre : k <+: p) (hseen : view t p ≠ none) :
    ∃ n, own t p = some n ∧ Above k n.key.val.path := by
  cases hn : own t p with
  | none =>
    exfalso
    have hk : own t k = none :=
      own_eq_none.mpr fun m hm hmk => own_eq_none.mp hn m hm (hmk.trans hpre)
    obtain ⟨m, hm, habove⟩ := (view_none hn).mp hseen
    apply (view_none hk).mpr _ hnone
    refine ⟨m, hm, hpre.trans habove.1, fun e => habove.2 ?_⟩
    exact habove.1.eq_of_length_le (e ▸ hpre.length_le)
  | some n =>
    refine ⟨n, rfl, ?_⟩
    have habove : ¬ n.key.val.path <+: k := by
      intro hnk
      rw [view_own (own_between hn hnk hpre)] at hnone
      obtain ⟨q, rfl⟩ := hpre
      rw [view_own hn, drop_append_of_le_length hnk.length_le] at hseen
      exact hseen (n.temp.content_closed _ q hnone)
    refine ⟨(List.prefix_or_prefix_of_prefix (own_above hn) hpre).resolve_left habove, ?_⟩
    rintro rfl
    exact habove (prefix_refl _)

theorem follows_unmounted {xs ys : UniTempMounts} (ht : Tidy (xs ++ m :: ys))
    (hget : get (xs ++ ys) m.key = none) (hcovered : Covered (xs ++ ys) m.key)
    (hys : ∀ y ∈ ys, Above m.key.val.path y.key.val.path →
      own (xs ++ ys) y.key.val.path ≠ some y ∨ get (xs ++ ys) y.key = none)
    (h : Follows (xs ++ m :: ys, mir)) : let r := remounts (xs ++ ys) m.key (xs.map (·.key.val))
    let held : List Delta := ⟨m.key, none⟩ :: r.2
    Tidy r.1 ∧ Follows (r.1, held.foldl (hear r.1) mir) := by
  intro r held
  have hrest : Tidy (xs ++ ys) :=
    ht.sublist (Sublist.append_left (sublist_cons_self _ _) _)
  have hkey : m.key.val.Plain := ht.plain m (mem_append_right _ mem_cons_self)
  have hks : ∀ k ∈ xs.map (·.key.val), Plain k ∧ IsPoint (xs ++ ys) k.path := by
    intro k hk
    obtain ⟨x, hx, rfl⟩ := mem_map.mp hk
    have hmem := mem_append_left ys hx
    exact ⟨hrest.plain x hmem, x, hmem, rfl⟩
  obtain ⟨hmade, hpoints⟩ := remounts_makes hrest hkey hks
  have hr : Tidy r.1 := hrest.congr hmade.frames
  refine ⟨hr, ?_⟩
  rw [follows_iff ht] at h
  rw [follows_iff hr]
  intro k hk
  rw [foldl_cons]
  have hshown : ∀ d ∈ r.2, d.value ≠ none ∧
      (view r.1 d.key.path = d.value ∨ IsPoint r.1 d.key.path) := hmade.shown
  have hmake : view (xs ++ ys) k.path ≠ view r.1 k.path →
      ∃ d ∈ r.2, ∀ mir', hear r.1 mir' d k.path = view r.1 k.path := by
    intro hne
    obtain ⟨d, hd, hpath⟩ := hmade.all _ hne
    exact ⟨d, hd, fun mir' => (hear_shown hr hk (hshown d hd).1 (fun _ => (hshown d hd).2)
      mir').2 hpath⟩
  apply foldl_hear_eq
  · exact fun d hd mir' => (hear_shown hr hk (hshown d hd).1 (fun _ => (hshown d hd).2) mir').1
  · by_cases hpre : m.key.val.path <+: k.path
    · rw [hear_none rfl, if_pos hpre]
      by_cases hnone : view r.1 k.path = none
      · exact .inl hnone.symm
      · right
        by_cases hsame : view (xs ++ ys) k.path = view r.1 k.path
        · -- what is there as before is below a mount that is announced
          have hseen : view (xs ++ ys) k.path ≠ none := hsame ▸ hnone
          rw [get_eq_view hrest hkey] at hget
          obtain ⟨x, hx, habove, hbelow⟩ : ∃ x ∈ xs,
              Above m.key.val.path x.key.val.path ∧ x.key.val.path <+: k.path := by
            obtain ⟨n, hn, habove⟩ := exists_mount_below hget hpre hseen
            rcases mem_append.mp (mem_of_own hn) with hx | hy
            · exact ⟨n, hx, habove, own_above hn⟩
            · have hself := own_between hn (prefix_refl _) (own_above hn)
              have hnone := (hys n hy habove).resolve_left fun hno => hno hself
              rw [get_eq_view hrest (hrest.plain n (mem_of_own hn)), view_own hself,
                drop_length] at hnone
              rw [view_own hn] at hseen
              exact absurd (n.temp.content_closed [] _ hnone) hseen
          obtain ⟨d, hd, hpath⟩ := hpoints _ (mem_map_of_mem hx) habove
          refine ⟨d, hd, fun mir' => ?_⟩
          have hpoint : IsPoint r.1 d.key.path := by
            rw [hpath]
            exact (isPoint_congr hmade.frames _).mpr ⟨x, mem_append_left ys hx, rfl⟩
          rw [hear_point hr hk (hshown d hd).1 hpoint, hpath, if_pos hbelow]
        · exact hmake hsame
    · rw [hear_none rfl, if_neg hpre, h k hk]
      have hsame : view (xs ++ m :: ys) k.path = view (xs ++ ys) k.path :=
        view_insert hpre fun hnone habove => hcovered.under hrest hkey habove hnone
      rw [hsame]
      by_cases heq : view (xs ++ ys) k.path = view r.1 k.path
      · exact .inl heq
      · exact .inr (hmake heq)

/-! ## Heard events -/

/-- A change of a mounted generator is shown: a value with all keys from the mount point to its
own, a removal with nothing mounted below, or of what another mount hides and does not have. -/
def Shown (t : UniTempMounts) (m : UniTempMount) (key : UniConfKey) : WvString → Prop
  | some _ => ∀ n ≤ key.length, (findmount t (m.key.val ++ key.take n)).map (·.gen) = some m.gen ∨
      IsPoint t (m.key.val ++ key.take n).path
  | none =>
    let key := m.key.val ++ key.filter (· ≠ [])
    has_subkey t key (findmount t key) = false ∧
      ((findmount t key).map (·.gen) = some m.gen ∨ get t key = none)

/-- What is announced is what changes. -/
def Heard (t : UniTempMounts) : Event → Prop
  | .op (.mountgen key gen _) => key.val.Plain ∧ (∀ m ∈ t, m.gen ≠ gen) ∧ Covered t key
  | .op (.unmount gen) => ∃ m ∈ t, m.gen = gen ∧ let rest := newer t gen ++ older t gen
    get rest m.key = none ∧ Covered rest m.key ∧
      ∀ y ∈ older t gen, Mounts.Above m.key.val.path y.key.val.path →
        (findmount rest y.key).map (·.gen) ≠ some y.gen ∨ get rest y.key = none
  | .op (.set _ (some _)) => True
  | .op (.set key none) => ∀ found ∈ findmount t key, has_subkey t key (some found) = false
  | .change gen key value => ∀ m ∈ t, m.gen = gen → Idle m.temp key value ∨ Shown t m key value

instance (t : UniTempMounts) (key : UniConfKey) : Decidable (Covered t key) :=
  inferInstanceAs (Decidable (∀ n < key.length, _))

instance (t : UniTempMounts) (p : List Segment) : Decidable (IsPoint t p) :=
  inferInstanceAs (Decidable (∃ m ∈ t, _))

instance (g : UniTempGen) (key : UniConfKey) : (value : WvString) → Decidable (Idle g key value)
  | none => inferInstanceAs (Decidable (_ = _))
  | some _ => inferInstanceAs (Decidable (_ ∨ _))

instance (t : UniTempMounts) (m : UniTempMount) (key : UniConfKey) :
    (value : WvString) → Decidable (Shown t m key value)
  | none => inferInstanceAs (Decidable (_ ∧ _))
  | some _ => inferInstanceAs (Decidable (∀ n ≤ key.length, _))

instance (t : UniTempMounts) : (e : Event) → Decidable (Heard t e)
  | .op (.mountgen _ _ _) => inferInstanceAs (Decidable (_ ∧ _))
  | .op (.unmount _) => inferInstanceAs (Decidable (∃ m ∈ t, _ ∧ _))
  | .op (.set _ (some _)) => .isTrue trivial
  | .op (.set key none) => inferInstanceAs (Decidable (∀ found ∈ findmount t key, _))
  | .change _ _ _ => inferInstanceAs (Decidable (∀ m ∈ t, _))

/-! ## Runs -/

theorem own_of_findmount (ht : Tidy t) (hm : m ∈ t)
    (hkey : key.Valid) (h : (findmount t key).map UniTempMount.gen = some m.gen) :
    own t key.path = some m := by
  obtain ⟨n, hn, hgen⟩ := Option.map_eq_some_iff.mp h
  rw [findmount_eq ht hkey] at hn
  rw [hn, eq_of_gen ht (mem_of_own hn) hm hgen]

theorem follows_set (ht : Tidy t) {key : ValidKey}
    (hheard : Heard t (.op (.set key value))) (h : Follows (t, mir)) : let r := set t key value
    Follows (r.1, r.2.foldl (hear r.1) mir) := by
  intro r
  cases hfound : findmount t key with
  | none =>
    have hr : r = (t, []) := by
      show set t key value = _
      rw [set, hfound]
    rw [hr]
    exact h
  | some found =>
    have hr : r = setgen t found.gen (trimkey found.key key) value := by
      show set t key value = _
      rw [set, hfound]
    have hself := hfound
    rw [findmount_eq ht key.2] at hself
    have hplain := ht.plain found (mem_of_own hself)
    have happ : found.key.val.path ++ (trimkey found.key key).path = key.val.path := by
      rw [path_trimkey hplain key.2 (own_above hself)]
      exact prefix_iff_eq_append.mp (own_above hself)
    rw [hr]
    cases value with
    | some value =>
      apply follows_setgen ht (mem_of_own hself) _ h
      intro a habove hbelow
      rw [happ] at hbelow
      exact .inl (own_between hself habove hbelow)
    | none =>
      apply follows_setgen_none ht (mem_of_own hself) _ _ h
      · rw [happ]
        intro s hs
        have hsub := has_subkey_of_leads ht key.2 hs
        rw [hfound, hheard found hfound] at hsub
        cases hsub
      · rw [happ]
        exact .inl hself

theorem follows_change (ht : Tidy t) {gen : Nat} {key : ValidKey}
    (hheard : Heard t (.change gen key value)) (h : Follows (t, mir)) :
    let r := setgen t gen key value
    Follows (r.1, r.2.foldl (hear r.1) mir) := by
  intro r
  by_cases hm : ∃ m ∈ t, m.gen = gen
  · obtain ⟨m, hm, rfl⟩ := hm
    rcases hheard m hm rfl with hidle | hshown
    · exact follows_idle ht hm hidle h
    · have hplain := ht.plain m hm
      cases value with
      | some value =>
        by_cases hkey : key.val.Plain
        · apply follows_setgen ht hm _ h
          intro a habove hbelow
          obtain ⟨q, rfl⟩ := habove
          rw [prefix_append_right_inj] at hbelow
          have hlen : q.length ≤ key.val.length := by
            rw [← hkey.length_path]
            exact hbelow.length_le
          have htake : Plain (key.val.take q.length) :=
            fun hmem => hkey (mem_of_mem_take hmem)
          have hpath : path (m.key.val ++ key.val.take q.length) =
              m.key.val.path ++ q := by
            rw [path_append, htake.path_eq, map_take, ← hkey.path_eq,
              ← prefix_iff_eq_take.mp hbelow]
          have hn := hshown q.length hlen
          rw [hpath] at hn
          refine hn.imp (fun hfind => ?_) id
          have hown := own_of_findmount ht hm (hplain.append htake).valid hfind
          rwa [hpath] at hown
        · have hslash : key.val.hastrailingslash = true := by
            rcases key.2.cases with hp | ⟨k, -, -, he⟩
            · exact absurd hp hkey
            · rw [he]
              exact slash_hastrailingslash k
          have hidle : Idle m.temp key (some value) := .inl hslash
          exact follows_idle ht hm hidle h
      | none =>
        obtain ⟨hsub, hown⟩ := hshown
        have hfilter : Plain (key.val.filter (· ≠ [])) := by
          intro hmem
          exact filter_names key.val [] hmem rfl
        have hk := hplain.append hfilter
        have hpath : path (m.key.val ++ key.val.filter (· ≠ [])) =
            m.key.val.path ++ key.val.path := by
          rw [path_append, path_filter]
        apply follows_setgen_none ht hm _ _ h
        · rw [← hpath]
          intro s hs
          rw [has_subkey_of_leads ht hk.valid hs] at hsub
          cases hsub
        · rw [← hpath, ← get_eq_view ht hk]
          exact hown.imp (own_of_findmount ht hm hk.valid) id
  · have hr : r = (t, []) :=
      setgen_of_not_mem (fun m hmem he => hm ⟨m, hmem, he⟩) key value
    rw [hr]
    exact h

theorem follows_mountgen (ht : Tidy t) {key : MountPoint} {gen : Nat}
    {temp : UniTempGen} (hheard : Heard t (.op (.mountgen key gen temp))) (h : Follows (t, mir)) :
    let r := mountgen t key gen temp
    Tidy r.1 ∧ Follows (r.1, follow mir r.2) := by
  obtain ⟨hkey, hnew, hcovered⟩ := hheard
  obtain ⟨ht', hheld⟩ := @follows_mounted t ht key gen temp hkey hnew hcovered mir h
  unfold mountgen
  dsimp only
  split
  · exact ⟨ht', hheld⟩
  · refine ⟨ht'.congr (frames_setgen _ _ _ _), ?_⟩
    exact follows_setgen ht' mem_cons_self (m := ⟨gen, temp, key⟩)
      (fun a habove _ => .inl (find?_cons_of_pos (by simpa using habove))) hheld

theorem heard_step {s : UniTempMounts × PathMap Segment Str} {e : Event}
    (hs : Tidy s.1 ∧ Follows s) (he : Heard s.1 e) :
    ∃ s' ds, mirror.step s e = some (s', ds) ∧ Follows s' ∧ Tidy s'.1 ∧ Follows s' := by
  obtain ⟨t, mir⟩ := s
  obtain ⟨ht, hfollows⟩ := hs
  have hgoal : ∀ r : UniTempMounts × List Dispatch, event t e = some r → Tidy r.1 →
      Follows (r.1, follow mir r.2) → ∃ s' ds, mirror.step (t, mir) e = some (s', ds) ∧
        Follows s' ∧ Tidy s'.1 ∧ Follows s' := by
    intro r hr ht' h'
    exact ⟨(r.1, follow mir r.2), r.2, congrArg (Option.map _) hr, h', ht', h'⟩
  cases e with
  | change gen key value =>
    apply hgoal _ rfl (ht.congr (frames_setgen _ _ _ _))
    exact follows_change ht he hfollows
  | op op =>
    cases op with
    | mountgen key gen temp =>
      obtain ⟨ht', h'⟩ := follows_mountgen ht he hfollows
      exact hgoal _ rfl ht' h'
    | set key value =>
      apply hgoal _ rfl (ht.congr (frames_set _ _ _))
      exact follows_set ht he hfollows
    | unmount gen =>
      obtain ⟨m, hm, hgen, hget, hcovered, hys⟩ := he
      subst hgen
      have hfind := find_gen ht hm
      have hsplit := split_gen hfind
      have hrest : Tidy (newer t m.gen ++ older t m.gen) := by
        apply ht.sublist
        conv_rhs => rw [hsplit]
        exact Sublist.append_left (sublist_cons_self _ _) _
      have hhidden : ∀ y ∈ older t m.gen, Above m.key.val.path y.key.val.path →
          own (newer t m.gen ++ older t m.gen) y.key.val.path ≠ some y ∨
            get (newer t m.gen ++ older t m.gen) y.key = none := by
        intro y hy habove
        refine (hys y hy habove).imp (fun hne hown => hne ?_) id
        rw [findmount_eq hrest y.key.2.1, hown]
        rfl
      have hold : Tidy (newer t m.gen ++ m :: older t m.gen) ∧
          Follows (newer t m.gen ++ m :: older t m.gen, mir) := by
        rw [← hsplit]
        exact ⟨ht, hfollows⟩
      obtain ⟨ht', h'⟩ := follows_unmounted hold.1 hget hcovered hhidden hold.2
      exact hgoal _ (congrArg (Option.map _) hfind) ht' h'

/-- A mirror that is equal to the view stays so in a run whose steps are all heard. -/
theorem heard_runs {s : UniTempMounts × PathMap Segment Str} (ht : Tidy s.1) (hs : Follows s)
    {es : List Event} (h : mirror.Along (fun s e => Heard s.1 e) s es) :
    mirror.Runs (fun _ _ s _ => Follows s) s es := by
  have hstep : ∀ s e, (Tidy s.1 ∧ Follows s) → Heard s.1 e →
      ∃ s' ds, mirror.step s e = some (s', ds) ∧ Follows s' ∧ Tidy s'.1 ∧ Follows s' :=
    fun _ _ => heard_step
  exact Machine.runs_of_along hstep ⟨ht, hs⟩ h

/-- A generator is mounted below the root and taken away again; it changes by itself, and so does
what it hides. -/
theorem heard_runs_nested :
    let x := bytes "x"
    let y := bytes "y"
    let a := some (bytes "a")
    let es : List Event := [.op (.mountgen (point [] (by decide)) 0 .empty),
      .op (.mountgen (point [x] (by decide)) 1 .empty),
      .op (.set ⟨[x, y], by decide, by decide⟩ a), .change 0 ⟨[y], by decide, by decide⟩ a,
      .op (.set ⟨[x], by decide, by decide⟩ none), .change 0 ⟨[x], by decide, by decide⟩ none,
      .op (.unmount 1)]
    mirror.Along (fun s e => Heard s.1 e) ([], fun _ => none) es ∧
      mirror.Runs (fun _ _ s _ => Follows s) ([], fun _ => none) es := by
  intro x y a es
  have h : mirror.Along (fun s e => Heard s.1 e) ([], fun _ => none) es := by decide +kernel
  have htidy : Tidy [] := ⟨nofun, nodup_nil⟩
  exact ⟨h, heard_runs htidy (fun _ _ => rfl) h⟩

/-- The generator that was mounted last is unmounted: its mount point is still there, in the
generator below it. -/
theorem uncovered_not_heard :
    ¬ mirror.Runs (fun _ _ s _ => Follows s) ([], fun _ => none)
      [.op (.mountgen (point [] (by decide)) 0 .empty),
        .op (.mountgen (point [bytes "x"] (by decide)) 1 .empty), .op (.unmount 1)] := by
  intro hruns
  have hread := hruns.imp (Q := fun _ _ s _ => s.2 [bytes "x"] = get s.1 [bytes "x"])
    fun _ _ _ _ h => h [bytes "x"] (by decide)
  revert hread
  decide +kernel

end UniTempMounts

end WvStreams
