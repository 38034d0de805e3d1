import WvStreams.UniConf.KeyStore.Prepend

/-!
# A key that is put to itself

The loops read the end of the other key in every turn, which moves if it is the same key.
`append` never comes to that end (`copyFrom_append`), and `prepend` puts nothing but what is there
(`copyFrom_prepend`), so that both are right for the empty key only.
-/

namespace WvStreams

open List Option

open UniConfKey

open SegmentVector

namespace KeyHeap

section Itself

variable {h : KeyHeap} {k : Nat} {o : KeyFields} {v : SegmentVector}

theorem getElem?_of_replace {w : SegmentVector} {index : Nat} {s : Segment}
    (hput : v.replace index s = some w) : w.vec[index]? = some s := by
  obtain ⟨vec, hwrite, rfl⟩ := map_eq_some_iff.mp hput
  by_cases hlt : index < v.vec.length
  · rw [write, if_pos hlt] at hwrite
    rw [← some.inj hwrite]
    exact getElem?_set_self hlt
  · rw [write, if_neg hlt] at hwrite
    cases hwrite

variable {fuel : Nat}

theorem copyFrom_append (hr : Owned h k o v) {j i : Nat} {s : Segment} (hj : j ≤ i)
    (hi : i < o.right) (hget : v.vec[i]? = some s) (hs : s ≠ []) :
    copyFrom (fun o _ _ => o.right) k k fuel j h = none := by
  induction fuel generalizing h o v j i s with
  | zero => rfl
  | succ fuel ih =>
    cases hread : v.vec[j]? with
    | none =>
      rw [hr.copyFrom_read (by omega), hread]
      rfl
    | some t =>
      by_cases ht : t = []
      · have hne : i ≠ j := by
          rintro rfl
          exact hs (some.inj (hget.symm.trans (hread.trans (congrArg some ht))))
        rw [hr.copyFrom_skip (by omega) (ht ▸ hread)]
        exact ih hr (by omega) hi hget hs
      · rw [hr.copyFrom_put hr.toSees (by omega) hread ht]
        cases hput : v.replace o.right t with
        | none => rfl
        | some w =>
          exact ih (hr.patch w (o.right + 1)) (by omega : j + 1 ≤ o.right) (Nat.lt_succ_self _)
            (getElem?_of_replace hput) ht

theorem slice_succ {left j : Nat} {s : Segment} (hj : left ≤ j) (hget : v.vec[j]? = some s) :
    v.slice left (j + 1) = v.slice left j ++ [s] := by
  obtain ⟨hlt, rfl⟩ := List.getElem?_eq_some_iff.mp hget
  rw [slice, List.take_succ_eq_append_getElem hlt, List.drop_append_of_le_length, slice]
  rw [List.length_take_of_le hlt.le]
  exact hj

theorem names_concat (K : UniConfKey) (s : Segment) :
    (names (K ++ [s])).length = (names K).length + if s = [] then 0 else 1 := by
  rw [names, filter_append, length_append, names]
  by_cases hs : s = []
  · rw [if_pos hs, hs]
    rfl
  · rw [if_neg hs, filter_singleton, decide_eq_true hs]
    rfl

theorem copyFrom_prepend (hr : Owned h k o v) {j start : Nat} {h' : KeyHeap} (hleft : o.left ≤ j)
    (hright : j ≤ o.right) (hcount : o.right = start + (names (v.slice o.left j)).length)
    (hrun : copyFrom (fun o _key j => o.left + j - _key.left) k k fuel j h = some h') :
    ∃ w r, h' = h.patch k o w r ∧ o.left ≤ r ∧ r = start + (names (w.slice o.left r)).length := by
  induction fuel generalizing h o v j with
  | zero => cases hrun
  | succ fuel ih =>
    by_cases hj : o.right ≤ j
    · rw [hr.copyFrom_done hj] at hrun
      obtain rfl := some.inj hrun
      obtain rfl : j = o.right := by omega
      exact ⟨v, o.right, hr.patch_id.symm, hleft, hcount⟩
    · rw [Nat.not_le] at hj
      cases hread : v.vec[j]? with
      | none =>
        rw [hr.copyFrom_read hj, hread] at hrun
        cases hrun
      | some t =>
        have hnames := names_concat (v.slice o.left j) t
        rw [← slice_succ hleft hread] at hnames
        by_cases ht : t = []
        · rw [if_pos ht] at hnames
          rw [hr.copyFrom_skip hj (ht ▸ hread)] at hrun
          exact ih hr (by omega) (by omega) (by omega) hrun
        · rw [if_neg ht] at hnames
          obtain ⟨hlt, hself⟩ := List.getElem?_eq_some_iff.mp hread
          have hindex : o.left + j - o.left = j := by omega
          have hput : v.replace j t = some ⟨v.vec, max v.used (j + 1)⟩ := by
            rw [replace_eq hlt, ← hself, List.getElem_cons_drop, List.take_append_drop]
          rw [hr.copyFrom_put hr.toSees hj hread ht] at hrun
          rw [hindex, hput] at hrun
          obtain ⟨w, r, rfl, hr', hcount'⟩ := ih
            (hr.patch ⟨v.vec, max v.used (j + 1)⟩ (o.right + 1)) (j := j + 1)
            (show o.left ≤ j + 1 by omega) (Nat.succ_le_succ hright)
            (show o.right + 1 = start + (names (v.slice o.left (j + 1))).length by omega) hrun
          exact ⟨w, r, patch_patch _ _ _ _, hr', hcount'⟩

theorem Shows.empty_ends (hv : Shows v o) (hnil : v.slice o.left o.right = []) :
    o.left = 0 ∧ o.right = 0 := by
  have hlen := length_slice o.left hv.inside
  have hordered := hv.ordered
  rw [hnil, length_nil] at hlen
  have hright := hv.empty (by omega)
  omega

theorem Owned.append_self {h₁ : KeyHeap} {o₁ : KeyFields} {v₁ : SegmentVector} (hk : Sees h k o v)
    (hv : Shows v o) (hunique : h.unique k = some h₁) (hr : Owned h₁ k o₁ v₁) :
    h.append fuel k k =
      (v₁.resize (o₁.right - o₁.left + o₁.right - o₁.left + 1) 0).bind fun w =>
      (copyFrom (fun o _ _ => o.right) k k fuel o₁.left (h₁.patch k o₁ w o₁.right)).bind fun h =>
        (h.putSlash k (isempty (v.slice o.left o.right) ||
          hastrailingslash (v.slice o.left o.right))).bind fun h => h.collapse k := by
  rw [KeyHeap.append, ends_eq hk hv]
  show (h.unique k).bind _ = _
  rw [hunique]
  show (h₁.key k).bind _ = _
  rw [hr.key]
  show (h₁.resize k (o₁.right - o₁.left + o₁.right - o₁.left + 1) 0).bind _ = _
  rw [hr.resize]
  cases v₁.resize (o₁.right - o₁.left + o₁.right - o₁.left + 1) 0 with
  | none => rfl
  | some w => rfl

theorem append_self_made (hh : h.Consistent) (hk : Sees h k o v)
    (hnil : v.slice o.left o.right = []) :
    ∃ h', (∀ n, 0 < n → h.append n k k = some h') ∧ Made h h' k [] := by
  obtain ⟨h₁, o₁, v₁, hunique, hr, hshows, hslice, hothers, -⟩ := hh.own hk
  obtain ⟨hleft, hright⟩ := hshows.empty_ends (hslice.trans hnil)
  obtain ⟨w, hresize, hsize, -⟩ :=
    resize_append hshows (o₁.right - o₁.left + o₁.right - o₁.left + 1)
  have hroom : o₁.right + 1 ≤ w.vec.length := by omega
  have hput : w.putAll o₁.right [[]] = _ := putAll_eq (cons_ne_nil _ _) hroom
  have hlen : (w.vec.take o₁.right ++ [[]] ++ w.vec.drop (o₁.right + 1)).length = w.vec.length := by
    simp only [length_append, length_take, length_drop, length_singleton]
    omega
  obtain ⟨h', hcollapse, hmade⟩ := hr.finish
    (w := ⟨w.vec.take o₁.right ++ [[]] ++ w.vec.drop (o₁.right + 1), max w.used (o₁.right + 1)⟩)
    (show o₁.left ≤ o₁.right + 1 by omega) (hlen ▸ hroom) (le_max_right _ _)
  have hshown : slice ⟨w.vec.take o₁.right ++ [[]] ++ w.vec.drop (o₁.right + 1),
      max w.used (o₁.right + 1)⟩ o₁.left (o₁.right + 1) = [[]] := by
    refine Eq.trans (slice_put_end (by omega) hshows.ordered) ?_
    rw [hleft, hright, slice_empty]
    rfl
  rw [hshown] at hmade
  refine ⟨h', fun n hn => ?_, hmade.of_untouched hothers⟩
  obtain ⟨n, rfl⟩ : ∃ m, n = m + 1 := ⟨n - 1, by omega⟩
  have hsees := hr.toSees.patch w o₁.right
  rw [Owned.append_self hk (hh.shows hk) hunique hr, hresize, Option.bind_some,
    hsees.copyFrom_done (show o₁.right ≤ o₁.left by omega), Option.bind_some, hsees.putSlash, hnil]
  show Option.bind (Option.map _ (w.putAll o₁.right [[]])) _ = _
  rw [hput, Option.map_some, Option.bind_some, patch_patch]
  exact hcollapse

theorem append_self_iff (hh : h.Consistent) (hk : Sees h k o v) :
    let K := v.slice o.left o.right
    Makes (fun fuel => h.append fuel k k) h k (concat K K) ↔ K = [] := by
  intro K
  by_cases hnil : K = []
  · obtain ⟨h', hrun, hmade⟩ := append_self_made hh hk hnil
    rw [hmade.makes_iff hrun, hnil]
    exact iff_of_true (same_self _) rfl
  · obtain ⟨h₁, o₁, v₁, hunique, hr, hshows, hslice, -⟩ := hh.own hk
    obtain ⟨w, hresize, -, hkeep⟩ :=
      resize_append hshows (o₁.right - o₁.left + o₁.right - o₁.left + 1)
    have hne : w.slice o₁.left o₁.right ≠ [] := by
      rw [hkeep, hslice]
      exact hnil
    obtain ⟨s, rest, hcons⟩ := exists_cons_of_ne_nil hne
    obtain ⟨hlt, hget, -⟩ := slice_cons hcons
    have hs : s ≠ [] := by
      have hvalid := hshows.valid
      rw [← hkeep, hcons] at hvalid
      exact hvalid.head_ne
    have hnone : ∀ n, 0 < n → h.append n k k = none := by
      intro n _
      rw [Owned.append_self hk (hh.shows hk) hunique hr, hresize, bind_some,
        copyFrom_append (hr.patch w o₁.right) (le_refl o₁.left) hlt hget hs]
      rfl
    exact iff_of_false (not_makes hnone) hnil

theorem Owned.prepend_self {h₁ : KeyHeap} {o₁ : KeyFields} {v₁ : SegmentVector} (hv : Shows v₁ o₁)
    (hunique : h.unique k = some h₁) (hr : Owned h₁ k o₁ v₁) :
    let m := (names (v₁.slice o₁.left o₁.right)).length
    h.prepend fuel k k = (v₁.resize (m + o₁.right - o₁.left) m).bind fun w =>
      (copyFrom (fun o _key j => o.left + j - _key.left) k k fuel o₁.left
        (h₁.patch k o₁ w o₁.right)).bind fun h => h.collapse k := by
  intro m
  have hordered := hv.ordered
  have hinside := hv.inside
  have hread : readRange v₁ o₁.left (o₁.right - o₁.left) = some (v₁.slice o₁.left o₁.right) := by
    have hend : o₁.left + (o₁.right - o₁.left) = o₁.right := by omega
    rw [readRange_eq (by omega), hend]
  rw [KeyHeap.prepend, hunique]
  show (h₁.key k).bind _ = _
  rw [hr.key]
  show (h₁.stores o₁.store).bind _ = _
  rw [hr.store]
  show (readRange v₁ o₁.left (o₁.right - o₁.left)).bind _ = _
  rw [hread]
  show (h₁.resize k (m + o₁.right - o₁.left) m).bind _ = _
  rw [hr.resize]
  cases v₁.resize (m + o₁.right - o₁.left) m with
  | none => rfl
  | some w => rfl

theorem prepend_self_made (hh : h.Consistent) (hk : Sees h k o v)
    (hnil : v.slice o.left o.right = []) :
    ∃ h', (∀ n, 0 < n → h.prepend n k k = some h') ∧ Made h h' k [] := by
  obtain ⟨h₁, o₁, v₁, hunique, hr, hshows, hslice, hothers, -⟩ := hh.own hk
  obtain ⟨hleft, hright⟩ := hshows.empty_ends (hslice.trans hnil)
  obtain ⟨h', hcollapse, hmade⟩ := hr.finish hshows.ordered hshows.inside hshows.used
  rw [hslice, hnil] at hmade
  refine ⟨h', fun n hn => ?_, hmade.of_untouched hothers⟩
  obtain ⟨n, rfl⟩ : ∃ m, n = m + 1 := ⟨n - 1, by omega⟩
  have hsees := hr.toSees.patch v₁ o₁.right
  have hsize : 0 + o₁.right - o₁.left ≤ v₁.vec.length := by omega
  rw [Owned.prepend_self hshows hunique hr, hslice, hnil]
  show (v₁.resize (0 + o₁.right - o₁.left) 0).bind _ = _
  rw [resize_fits hsize, bind_some,
    hsees.copyFrom_done (show o₁.right ≤ o₁.left by omega), bind_some, hcollapse]

theorem length_names_of_same {K L : UniConfKey} (h : K.same L = true) :
    (names K).length = (names L).length := by
  rw [same, beq_iff_eq] at h
  have hlen := congrArg length (path_congr h)
  rw [path, path, length_map, length_map] at hlen
  exact hlen

theorem length_names_concat (K L : UniConfKey) :
    (names (concat K L)).length = (names K).length + (names L).length := by
  have hlen := congrArg length (path_concatKey K L)
  rw [length_append, path, path, path, length_map, length_map, length_map] at hlen
  exact hlen

theorem prepend_self_iff (hh : h.Consistent) (hk : Sees h k o v) :
    let K := v.slice o.left o.right
    Makes (fun fuel => h.prepend fuel k k) h k (concat K K) ↔ K = [] := by
  intro K
  by_cases hnil : K = []
  · obtain ⟨h', hrun, hmade⟩ := prepend_self_made hh hk hnil
    rw [hmade.makes_iff hrun, hnil]
    exact iff_of_true (same_self _) rfl
  · refine iff_of_false (fun hmakes => ?_) hnil
    obtain ⟨h₁, o₁, v₁, hunique, hr, hshows, hslice, -⟩ := hh.own hk
    have hvalid : K.Valid := (hh.shows hk).valid
    have hnames : names K ≠ [] := fun h => hnil ((names_eq_nil hvalid).mp h)
    have hpos := length_pos_iff.mpr hnames
    have hKpos := length_pos_iff.mpr hnil
    have hK : K.length = o₁.right - o₁.left := by
      rw [← length_slice o₁.left hshows.inside, hslice]
    obtain ⟨n, h', shown, -, hsome, hshown, hsame⟩ := hmakes.result 0
    have hlen := length_of_same hsame
    have hcount := length_names_of_same hsame
    rw [length_concat hvalid hnames] at hlen
    rw [length_names_concat] at hcount
    rw [Owned.prepend_self hshows hunique hr, hslice] at hsome
    obtain ⟨w, -, hrest⟩ := bind_eq_some_iff.mp hsome
    obtain ⟨h₂, hcopy, hcollapse⟩ := bind_eq_some_iff.mp hrest
    have hstart : o₁.right = o₁.right + (names (w.slice o₁.left o₁.left)).length := by
      rw [w.slice_empty]
      rfl
    obtain ⟨w', r, rfl, hr', hmoved⟩ := copyFrom_prepend (hr.patch w o₁.right) (le_refl o₁.left)
      hshows.ordered hstart hcopy
    rw [patch_patch] at hcollapse
    rcases (hr.toSees.patch w' r).of_collapse hcollapse hshown with rfl | ⟨hroom, rfl⟩
    · rw [length_nil] at hlen
      omega
    · -- the key has as many more segments as it shows names, which is too few for both
      have hshort : (w'.slice o₁.left r).length = r - o₁.left :=
        length_slice o₁.left hroom
      have hlen' : (w'.slice o₁.left r).length = _ := hlen
      have hcount' : (names (w'.slice o₁.left r)).length = _ := hcount
      have hmoved' : r = o₁.right + (names (w'.slice o₁.left r)).length := hmoved
      have hordered := hshows.ordered
      omega

end Itself

end KeyHeap

end WvStreams
