import WvStreams.Lib.Machine
import WvStreams.UniConf.Mounting.Iterators

/-!
# Whether the queries agree

In a sound table the queries agree with each other (`Sound.agree`). An operation keeps the table
sound if it is `Careful`: it removes no key that something is mounted below, nor the root of what
is mounted, and it leaves no mount without the keys that lead to it.
-/

namespace WvStreams

open Lib Mounts List UniTempGen UniConfKey

namespace UniTempMounts

open UniMountGen (trimkey)

/-- The queries agree for a key. -/
structure AgreeAt (t : UniTempMounts) (key : UniConfKey) : Prop where
  exists_ : exists_ t key = (get t key).isSome
  haschildren : haschildren t key = !(iterator t key).isEmpty
  children : ∀ c : Segment, c ≠ [] → ((∃ name ∈ iterator t key, fold name = (fold c : Segment)) ↔
      UniTempMounts.exists_ t (key ++ [c]) = true)
  /-- Down to any depth that is enough. -/
  descendants : ∃ n, ∀ depth ≥ n, let keys := recursiveiterator t depth key
    (keys.map (List.map (fold : Segment → Segment))).Nodup ∧ (∀ d ∈ keys, d.Plain) ∧
      ∀ d : UniConfKey, d.Plain →
        ((∃ d' ∈ keys, d'.same d = true) ↔ d ≠ [] ∧ (get t (key ++ d)).isSome = true)

/-- The queries agree for all keys without a trailing slash. -/
def Agree (t : UniTempMounts) : Prop := ∀ key : UniConfKey, key.Plain → AgreeAt t key

variable {t : UniTempMounts} {key : UniConfKey}

theorem exists_iff (h : Sound t) (hkey : key.Plain) :
    exists_ t key = true ↔ look [] (mounts t) key.path ≠ none := by
  have howner := owner_mounts h.tidy hkey.valid
  rw [look_ne_none_iff [] h.led (closed_mounts t), ← has_subkey_iff h.tidy hkey, howner]
  unfold exists_
  rw [Bool.or_eq_true]
  apply or_congr_left
  cases hfound : findmount t key with
  | none => simp
  | some found =>
    have hvalue := get_trimkey (h.tidy.plain found (mem_of_find?_eq_some hfound)) hkey
      (findmount_above h.tidy hkey.valid hfound)
    rw [Option.any_some, UniTempGen.exists_, hvalue, Option.isSome_iff_ne_none]
    simp

theorem haschildren_eq (h : Sound t) (hkey : key.Plain) :
    haschildren t key = !(iterator t key).isEmpty := by
  have hnames := iterator_names h hkey
  have howner := owner_mounts h.tidy hkey.valid
  have hsub := has_subkey_iff h.tidy hkey
  have hmem : (∃ s, Leads (mounts t) key.path s) → iterator t key ≠ [] := by
    rintro ⟨s, hs⟩ hnil
    have hseen : look [] (mounts t) (key.path ++ [s]) ≠ none := by
      cases hfound : findmount t key with
      | none =>
        rw [hfound] at howner
        exact (look_concat_none_iff [] h.rooted howner s).mpr
          ((leads_iff howner s).mp hs)
      | some found =>
        rw [hfound] at howner
        exact (look_concat_iff [] h.led h.rooted howner s).mpr
          (h.led.value_ne_none hs howner)
    obtain ⟨name, hname, -⟩ := (hnames.mem s).mpr hseen
    rw [hnil] at hname
    cases hname
  rw [Bool.eq_iff_iff, Bool.not_eq_true', isEmpty_eq_false_iff]
  unfold haschildren
  rw [Bool.or_eq_true, hsub]
  cases hfound : findmount t key with
  | none =>
    rw [hfound] at howner
    refine ⟨fun hleads => hmem (hleads.resolve_left (by simp)), fun hne => Or.inr ?_⟩
    obtain ⟨name, hname⟩ := exists_mem_of_ne_nil _ hne
    have hseen := (hnames.mem (fold name)).mp ⟨name, hname, rfl⟩
    exact ⟨_, (leads_iff howner _).mpr
      ((look_concat_none_iff [] h.rooted howner _).mp hseen)⟩
  | some found =>
    have hown : (some found).any (fun f => gen.haschildren (trimkey f.key key) f.temp) =
        true ↔ iterator t key ≠ [] := by
      rw [iterator, hfound, Option.any_some, ne_eq, map_eq_nil_iff]
      simp [gen]
    rw [hown]
    exact ⟨fun hleads => hleads.elim id hmem, Or.inl⟩

theorem Sound.agree (h : Sound t) : Agree t := by
  intro key hkey
  have hsome : ∀ {k : UniConfKey}, k.Plain →
      ((get t k).isSome = true ↔ look [] (mounts t) k.path ≠ none) := by
    intro k hk
    rw [get_eq_look h.tidy hk, Option.isSome_iff_ne_none]
  refine ⟨?_, haschildren_eq h hkey, ?_, depth t, ?_⟩
  · rw [Bool.eq_iff_iff, exists_iff h hkey, hsome hkey]
  · intro c hc
    rw [exists_iff h (hkey.concat hc), path_concat key hc rfl]
    exact (iterator_names h hkey).mem (fold c)
  · intro n hn
    have hkeys := recursiveiterator_enumerates h hkey hn
    refine ⟨hkeys.distinct, hkeys.plain, fun d hd => ?_⟩
    have hne : d ≠ [] ↔ d.path ≠ [] := by
      rw [hd.path_eq, ne_eq, ne_eq, map_eq_nil_iff]
    rw [hsome (hkey.append hd), path_append, hne, ← hkeys.mem d.path]
    apply exists_congr
    intro d'
    apply and_congr_right
    intro hd'
    rw [same, beq_iff_eq, ← hd.path_eq, ← (hkeys.plain d' hd').path_eq]

/-- The operation keeps what leads to the mounts. -/
def Careful (t : UniTempMounts) : Op → Prop
  | .mountgen key gen _ =>
    key.val.Plain ∧ (∀ m ∈ t, m.gen ≠ gen) ∧ Alike (key.val :: t.map (·.key.val))
  | .unmount gen => ∃ m ∈ t, m.gen = gen ∧ Alike ((newer t gen ++ older t gen).map (·.key.val)) ∧
    ∀ x ∈ newer t gen, Mounts.Above m.key.val.path x.key.val.path →
      Mounts.Bare ((newer t x.gen).map (·.key.val.path)) ((older t gen).map (·.key.val.path))
        x.key.val.path
  | .set _ (some _) => True
  | .set key none => ∀ found ∈ findmount t key, has_subkey t key (some found) = false ∧
    (found.key.val.path = key.val.path → key.val.path = [])

instance (t : UniTempMounts) : (op : Op) → Decidable (Careful t op)
  | .mountgen _ _ _ => inferInstanceAs (Decidable (_ ∧ _))
  | .unmount _ => inferInstanceAs (Decidable (∃ m ∈ t, _ ∧ _))
  | .set _ (some _) => .isTrue trivial
  | .set key none => inferInstanceAs (Decidable (∀ found ∈ findmount t key, _ ∧ _))

theorem alike_congr {t' : UniTempMounts} (h : frames t' = frames t)
    (halike : Alike (t.map (·.key.val))) : Alike (t'.map (·.key.val)) := by
  have hkeys : ∀ t : UniTempMounts, t.map (·.key.val) = (frames t).map (·.2.val) := by
    intro t
    rw [frames, map_map]
    rfl
  rwa [hkeys, h, ← hkeys]

theorem Sound.grown {t' : UniTempMounts} (h : Sound t)
    (hgrown : Grown (mounts t) (mounts t')) (hframes : frames t' = frames t) : Sound t' :=
  ⟨h.tidy.congr hframes, h.led.grown hgrown, h.rooted.grown hgrown, alike_congr hframes h.alike⟩

theorem Sound.set (h : Sound t) {key : ValidKey} {value : WvString}
    (hcareful : Careful t (.set key value)) : Sound (UniTempMounts.set t key value).1 := by
  cases value with
  | some value => exact h.grown (grown_set t key value) (frames_set _ _ _)
  | none =>
    cases hfound : findmount t key with
    | none =>
      have hsame : UniTempMounts.set t key none = (t, []) := by rw [UniTempMounts.set, hfound]
      rw [hsame]
      exact h
    | some found =>
      obtain ⟨hsub, hroot⟩ := hcareful found hfound
      have howner := owner_mounts h.tidy key.2
      rw [hfound] at howner
      have hmounts := mounts_set_none h.tidy key.2
      refine ⟨h.tidy.congr (frames_set _ _ _), ?_, ?_, alike_congr (frames_set _ _ _) h.alike⟩
      · rw [hmounts]
        apply h.led.remove
        intro s hs
        have hleads := has_subkey_of_leads h.tidy key.2 hs
        rw [hfound, hsub] at hleads
        cases hleads
      · rw [hmounts]
        apply h.rooted.remove
        intro o ho hpath
        rw [howner] at ho
        obtain rfl := Option.some.inj ho
        exact hroot hpath

open UniTempMounts

theorem Sound.makemount (h : Sound t) (hkey : key.Plain) : Sound (makemount t key).1 := by
  obtain ⟨hmounts, hframes⟩ := makemount_spec h.tidy hkey
  apply h.grown _ hframes
  rw [hmounts]
  exact grown_lead _ _ _

theorem Sound.mountgen (h : Sound t) {key : MountPoint} {gen : Nat} {temp : UniTempGen}
    (hcareful : Careful t (.mountgen key gen temp)) :
    Sound (UniTempMounts.mountgen t key gen temp).1 := by
  obtain ⟨hkey, hnew, halike⟩ := hcareful
  obtain ⟨hmounts, hframes⟩ := makemount_spec h.tidy hkey
  have hmade := h.makemount hkey
  have hreached : Reached (mounts (UniTempMounts.makemount t key).1) key.val.path := by
    rw [hmounts]
    exact reached_lead _ _ _
  -- the new mount, with any content
  have hled : ∀ temp' : UniTempGen, Led (mounts (⟨gen, temp', key⟩ ::
      (UniTempMounts.makemount t key).1)) := fun temp' => hmade.led.mount hreached
  have hsound : ∀ temp' : UniTempGen, temp'.content [] ≠ none →
      Sound (⟨gen, temp', key⟩ :: (UniTempMounts.makemount t key).1) := by
    intro temp' hroot
    have hframes' : frames (⟨gen, temp', key⟩ :: (UniTempMounts.makemount t key).1) =
        frames (⟨gen, temp', key⟩ :: t) := congrArg (cons (gen, key)) hframes
    have htidy : Tidy (⟨gen, temp', key⟩ :: t) := by
      constructor
      · exact forall_mem_cons.mpr ⟨hkey, h.tidy.plain⟩
      · refine nodup_cons.mpr ⟨fun hmem => ?_, h.tidy.distinct⟩
        obtain ⟨m, hm, he⟩ := mem_map.mp hmem
        exact hnew m hm he
    exact ⟨htidy.congr hframes', hled temp',
      forall_mem_cons.mpr ⟨fun _ => hroot, hmade.rooted⟩, alike_congr hframes' halike⟩
  unfold UniTempMounts.mountgen
  dsimp only
  split
  · next hexists =>
    apply hsound
    have hget : (temp.get []).isSome = true := hexists
    rwa [get_of_plain _ plain_nil, Option.isSome_iff_ne_none] at hget
  · have hset : (setgen (⟨gen, temp, key⟩ :: (UniTempMounts.makemount t key).1) gen []
        (some [])).1 = ⟨gen, (temp.set [] (some [])).1, key⟩ ::
          (UniTempMounts.makemount t key).1 := by
      rw [setgen, if_pos rfl]
    rw [hset]
    apply hsound
    rw [content_set]
    exact Option.some_ne_none []

theorem remounts_spec (ht : Tidy t) (hkey : key.Plain) {ks : List UniConfKey}
    (hks : ∀ k ∈ ks, k.Plain) :
    Grown (mounts t) (mounts (remounts t key ks).1) ∧ frames (remounts t key ks).1 = frames t ∧
      ∀ k ∈ ks, Above key.path k.path → Reached (mounts (remounts t key ks).1) k.path := by
  induction ks generalizing t with
  | nil => exact ⟨grown_refl _, rfl, nofun⟩
  | cons k ks ih =>
    obtain ⟨hk, hks⟩ := forall_mem_cons.mp hks
    by_cases habove : (key.suborsame k && !key.same k) = true
    · obtain ⟨hmounts, hframes⟩ := makemount_spec ht hk
      obtain ⟨hgrown, hframes', hreached⟩ := ih (ht.congr hframes) hks
      have hgrown' : Grown (mounts t) (mounts (makemount t k).1) := by
        rw [hmounts]
        exact grown_lead _ _ _
      have hresult : (remounts t key (k :: ks)).1 =
          (remounts (makemount t k).1 key ks).1 := by
        rw [remounts, if_pos habove]
      rw [hresult]
      refine ⟨hgrown'.trans hgrown, hframes'.trans hframes, ?_⟩
      refine forall_mem_cons.mpr ⟨fun _ => ?_, hreached⟩
      apply Reached.grown hgrown
      rw [hmounts]
      exact reached_lead _ _ _
    · obtain ⟨hgrown, hframes, hreached⟩ := ih ht hks
      have hresult : (remounts t key (k :: ks)).1 = (remounts t key ks).1 := by
        rw [remounts, if_neg habove]
      rw [hresult]
      refine ⟨hgrown, hframes, forall_mem_cons.mpr ⟨fun h => ?_, hreached⟩⟩
      apply absurd _ habove
      rw [Bool.and_eq_true, hkey.suborsame_iff hk.valid, Bool.not_eq_true', same,
        beq_eq_false_iff_ne, ← hkey.path_eq, ← hk.path_eq]
      exact h

theorem newer_append {as bs : UniTempMounts} {x : UniTempMount}
    (h : ((as ++ x :: bs).map UniTempMount.gen).Nodup) : newer (as ++ x :: bs) x.gen = as := by
  rw [map_append, map_cons, nodup_append] at h
  have hne : ∀ a ∈ as, decide (a.gen ≠ x.gen) = true := fun a ha =>
    decide_eq_true (h.2.2 a.gen (mem_map_of_mem ha) x.gen mem_cons_self)
  rw [newer, takeWhile_append_of_pos hne, takeWhile_cons_of_neg (by simp), append_nil]

theorem Sound.unmount (h : Sound t) {gen : Nat} (hcareful : Careful t (.unmount gen)) :
    ∃ t' ds, unmount t gen = some (t', ds) ∧ Sound t' := by
  obtain ⟨m, hm, hgen, halike, hbare⟩ := hcareful
  subst hgen
  have hfind := find_gen h.tidy hm
  have hsplit := split_gen hfind
  refine ⟨_, _, congrArg (Option.map _) hfind, ?_⟩
  have hsub : (newer t m.gen ++ older t m.gen).Sublist t := by
    conv_rhs => rw [hsplit]
    exact Sublist.append_left (sublist_cons_self _ _) _
  have hrest := h.tidy.sublist hsub
  have hks : ∀ k ∈ (newer t m.gen).map (·.key.val), UniConfKey.Plain k := by
    intro k hk
    obtain ⟨x, hx, rfl⟩ := mem_map.mp hk
    exact hrest.plain x (mem_append_left _ hx)
  obtain ⟨hgrown, hframes, hreached⟩ := remounts_spec hrest (h.tidy.plain m hm) hks
  refine ⟨hrest.congr hframes, ?_, ?_, alike_congr hframes halike⟩
  · have hled : Led (mounts (newer t m.gen) ++ mounted m :: mounts (older t m.gen)) := by
      have hled := h.led
      rwa [hsplit, mounts, map_append, map_cons] at hled
    have happ : mounts (newer t m.gen ++ older t m.gen) =
        mounts (newer t m.gen) ++ mounts (older t m.gen) := map_append
    rw [happ] at hgrown
    apply hled.unmount hgrown
    intro as k bs he habove
    obtain ⟨xs, ys, hxs, rfl, hys⟩ := map_eq_append_iff.mp he
    obtain ⟨x, ys, rfl, rfl, rfl⟩ := map_eq_cons_iff.mp hys
    obtain ⟨as, cs, has, rfl, hcs⟩ := map_eq_append_iff.mp hxs
    obtain ⟨x, bs, rfl, rfl, rfl⟩ := map_eq_cons_iff.mp hcs
    have hx : x ∈ newer t m.gen := by
      rw [has]
      exact mem_append_right _ mem_cons_self
    refine ⟨hreached _ (mem_map_of_mem hx) habove, ?_⟩
    have hnewer : newer t x.gen = as := by
      have hdistinct := h.tidy.distinct
      rw [hsplit, has, append_assoc, cons_append] at hdistinct ⊢
      exact newer_append hdistinct
    have hb := hbare x hx habove
    rw [hnewer] at hb
    rw [map_map, mounts, map_map]
    exact hb
  · have hroot : Rooted (mounts (newer t m.gen ++ older t m.gen)) := by
      intro x hx
      exact h.rooted x ((hsub.map mounted).subset hx)
    exact hroot.grown hgrown

def machine : Machine UniTempMounts Op (List Dispatch) := ⟨step⟩

theorem sound_nil : Sound [] :=
  ⟨⟨nofun, nodup_nil⟩, trivial,
    nofun, nofun⟩

theorem Sound.step {t : UniTempMounts} (h : Sound t) {op : Op} (hcareful : Careful t op) :
    ∃ t' ds, machine.step t op = some (t', ds) ∧ Sound t' := by
  cases op with
  | mountgen key gen temp => exact ⟨_, _, rfl, h.mountgen hcareful⟩
  | unmount gen => exact h.unmount hcareful
  | set key value => exact ⟨_, _, rfl, h.set hcareful⟩

/-- After each of any careful operations the queries agree. -/
theorem agree_runs {ops : List Op} (h : machine.Along Careful [] ops) :
    machine.Runs (fun _ _ t _ => Agree t) [] ops := by
  have hstep : ∀ t op, Sound t → Careful t op →
      ∃ t' ds, machine.step t op = some (t', ds) ∧ Agree t' ∧ Sound t' := by
    intro t op ht hop
    obtain ⟨t', ds, hnext, ht'⟩ := ht.step hop
    exact ⟨t', ds, hnext, ht'.agree, ht'⟩
  exact Machine.runs_of_along hstep sound_nil h

/-- A generator is mounted over another and taken away again. -/
theorem agree_runs_nested :
    let x := bytes "x"
    let y := bytes "y"
    let ops : List Op := [.mountgen (point [] (by decide)) 0 .empty,
      .mountgen (point [x, y] (by decide)) 1 .empty,
      .set ⟨[x, y, x], by decide, by decide⟩ (some (bytes "a")), .unmount 1,
      .set ⟨[x], by decide, by decide⟩ none]
    machine.Along Careful [] ops ∧ machine.Runs (fun _ _ t _ => Agree t) [] ops := by
  intro x y ops
  have h : machine.Along Careful [] ops := by decide +kernel
  exact ⟨h, agree_runs h⟩

/-- A key above a mount point is removed: it exists, and has no value. -/
theorem removed_key_exists :
    let x := bytes "x"
    let y := bytes "y"
    ¬ machine.Runs (fun _ _ t _ => Agree t) [] [.mountgen (point [] (by decide)) 0 .empty,
      .mountgen (point [x, y] (by decide)) 1 .empty, .set ⟨[x], by decide, by decide⟩ none] := by
  intro x y hruns
  have hexists := hruns.imp (Q := fun _ _ t _ => exists_ t [x] = (get t [x]).isSome)
    fun _ _ t _ h => (h [x] (by decide)).exists_
  revert hexists
  decide +kernel

end UniTempMounts

end WvStreams
