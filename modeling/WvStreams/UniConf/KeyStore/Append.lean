import WvStreams.UniConf.KeyStore.Edit

/-!
# `append` of another key

The room is counted from the start of the store, which is not enough for a key that begins behind
it and has its store for itself. What is put behind a trailing slash makes another key than the
concatenation.
-/

namespace WvStreams

open List Option UniConfKey

open SegmentVector

namespace KeyHeap

section Append

variable {h : KeyHeap} {k l : Nat} {o p : KeyFields} {v source : SegmentVector}

theorem Ready.append (hr : Ready h k l o v p source) (hp : Shows source p) {fuel : Nat}
    (hfuel : p.right - p.left < fuel) (size : Nat) :
    let L := source.slice p.left p.right
    ((((h.resize k size 0).bind fun h =>
      KeyHeap.copyFrom (fun o _ _ => o.right) k l fuel p.left h).bind fun h =>
        h.putSlash k (L.isempty || L.hastrailingslash)).bind fun h => h.collapse k) =
      (v.resize size 0).bind fun v => (v.putAll o.right (added L)).bind fun v =>
        (h.patch k o v (o.right + (added L).length)).collapse k := by
  intro L
  have hlen : L.length = p.right - p.left := length_slice p.left hp.inside
  obtain ⟨slash, hslash, hsplit⟩ := names_append hp.valid
  have hturns : (names L ++ slash).length < fuel := by
    rw [← hsplit, hlen]
    exact hfuel
  rw [hr.resize]
  cases v.resize size 0 with
  | none => rfl
  | some v =>
    have hcopy : KeyHeap.copyFrom (fun o _ _ => o.right) k l fuel p.left
        (h.patch k o v o.right) = _ :=
      hr.copyFrom hslash hsplit hp.inside (plain_names L) (fun _ _ => rfl) hturns
    rw [map_some, bind_some, bind_some, hcopy, added, putAll_append]
    cases v.putAll o.right (names L) with
    | none => rfl
    | some v =>
      rw [map_some, bind_some, bind_some, (hr.patch v _).putSlash]
      cases v.putAll (o.right + (names L).length)
          (if (L.isempty || L.hastrailingslash) = true then [[]] else []) with
      | none => rfl
      | some v =>
        rw [map_some, bind_some, bind_some, patch_patch, length_append, Nat.add_assoc]

theorem append_eq {h₁ : KeyHeap} {o₁ : KeyFields} {v₁ : SegmentVector} {fuel : Nat}
    (hl : Sees h l p source) (hp : Shows source p) (hfuel : p.right - p.left < fuel)
    (hunique : h.unique k = some h₁) (hr : Ready h₁ k l o₁ v₁ p source) :
    h.append fuel k l = (v₁.resize (o₁.right - o₁.left + p.right - p.left + 1) 0).bind fun v =>
      (v.putAll o₁.right (added (source.slice p.left p.right))).bind fun v =>
        (h₁.patch k o₁ v (o₁.right + (added (source.slice p.left p.right)).length)).collapse k := by
  rw [← hr.append hp hfuel, KeyHeap.append, ends_eq hl hp]
  show (h.unique k).bind _ = _
  rw [hunique]
  show (h₁.key k).bind _ = _
  rw [hr.key]
  show (h₁.key l).bind _ = _
  rw [hr.other.key, bind_assoc, bind_assoc]
  rfl

def AppendFits (o : KeyFields) (v : SegmentVector) (K L : UniConfKey) : Prop :=
  o.right + max L.length 1 ≤ max v.vec.length (K.length + L.length + 1)

theorem resize_append (hv : Shows v o) (size : Nat) : ∃ w,
    v.resize size 0 = some w ∧ w.vec.length = max v.vec.length size ∧
      w.slice o.left o.right = v.slice o.left o.right := by
  by_cases hle : size ≤ v.vec.length
  · exact ⟨v, resize_fits hle, (max_eq_left hle).symm, rfl⟩
  · have hlt : v.vec.length < size := Nat.lt_of_not_le hle
    have hinside := hv.inside
    have hused := hv.used
    have hkept : o.right ≤ v.kept size 0 := by
      rw [kept]
      omega
    have hkept' : v.kept size 0 ≤ v.vec.length := by
      rw [kept]
      omega
    refine ⟨_, resize_grow hlt (Nat.zero_le _), ?_, ?_⟩
    · simp only [length_append, length_replicate, length_take_of_le hkept']
      rw [kept] at hkept' ⊢
      omega
    · have hmoved := slice_moved (replicate 0 [])
        (replicate (size - (v.kept size 0 + 0)) []) o.left (v.used + 0) hkept' hkept
      rw [length_replicate, Nat.add_zero, Nat.add_zero] at hmoved
      exact hmoved

theorem append_cases (hh : h.Consistent) (hk : Sees h k o v) (hl : Sees h l p source)
    (hne : l ≠ k) :
    let K := v.slice o.left o.right
    let L := source.slice p.left p.right
    (h.ref_count o.store ≠ 1 ∨ AppendFits o v K L) ∧
        (∃ h', (∀ n, p.right - p.left < n → h.append n k l = some h') ∧
          Made h h' k (UniConfKey.collapse (K ++ added L))) ∨
      ¬ (h.ref_count o.store ≠ 1 ∨ AppendFits o v K L) ∧
        ∀ n, p.right - p.left < n → h.append n k l = none := by
  intro K L
  obtain ⟨h₁, o₁, v₁, hunique, howned, hshows, hslice, hothers, hcase⟩ := hh.own hk
  have hp := hh.shows hl
  have hr : Ready h₁ k l o₁ v₁ p source := ⟨howned, (hothers l hne).sees hl, hne⟩
  have hinside := hshows.inside
  have hK : K.length = o₁.right - o₁.left := by
    rw [← length_slice o₁.left hinside, hslice]
  have hL : L.length = p.right - p.left := length_slice p.left hp.inside
  have hadded : (added L).length = max L.length 1 := length_added hp.valid
  have haddedne : added L ≠ [] := by
    rw [← length_pos_iff, hadded]
    omega
  obtain ⟨w, hresize, hsize, hkeep⟩ :=
    resize_append hshows (o₁.right - o₁.left + p.right - p.left + 1)
  have hrun : ∀ n, p.right - p.left < n → h.append n k l =
      (w.putAll o₁.right (added L)).bind fun v =>
        (h₁.patch k o₁ v (o₁.right + (added L).length)).collapse k := by
    intro n hn
    rw [append_eq hl hp hn hunique hr, hresize]
    rfl
  have hfits : (h.ref_count o.store ≠ 1 ∨ AppendFits o v K L) ↔
      o₁.right + (added L).length ≤ w.vec.length := by
    have hordered := hp.ordered
    rw [hsize, hadded]
    rcases hcase with ⟨hone, rfl, rfl⟩ | ⟨hshared, hleft, hlen, -⟩
    · rw [or_iff_right (not_not.mpr hone), AppendFits, hK, hL]
      have hsum : o₁.right - o₁.left + p.right - p.left + 1 =
          o₁.right - o₁.left + (p.right - p.left) + 1 := by omega
      rw [hsum]
    · refine iff_of_true (Or.inl hshared) ?_
      omega
  rw [hfits]
  by_cases hfit : o₁.right + (added L).length ≤ w.vec.length
  · refine Or.inl ⟨hfit, ?_⟩
    have hput := putAll_eq haddedne hfit
    have hright : o₁.right ≤ w.vec.length := (Nat.le_add_right _ _).trans hfit
    have hroom : o₁.right + (added L).length ≤ (w.vec.take o₁.right ++ added L ++
        w.vec.drop (o₁.right + (added L).length)).length := by
      simp only [length_append, length_take_of_le hright]
      omega
    obtain ⟨h', hcollapse, hmade⟩ := howned.finish
      (w := ⟨w.vec.take o₁.right ++ added L ++ w.vec.drop (o₁.right + (added L).length),
        max w.used (o₁.right + (added L).length)⟩)
      (hshows.ordered.trans (Nat.le_add_right _ _)) hroom (le_max_right _ _)
    have hshown : slice ⟨w.vec.take o₁.right ++ added L ++
        w.vec.drop (o₁.right + (added L).length), max w.used (o₁.right + (added L).length)⟩
          o₁.left (o₁.right + (added L).length) = K ++ added L := by
      rw [slice_put_end hright hshows.ordered]
      show w.slice o₁.left o₁.right ++ added L = _
      rw [hkeep, hslice]
    rw [hshown] at hmade
    refine ⟨h', fun n hn => ?_, hmade.of_untouched hothers⟩
    rw [hrun n hn, hput, bind_some, hcollapse]
  · refine Or.inr ⟨hfit, fun n hn => ?_⟩
    rw [hrun n hn, putAll_none haddedne (Nat.lt_of_not_le hfit)]
    rfl

theorem append_same_iff {K L : UniConfKey} (hK : K.Valid) :
    (UniConfKey.collapse (K ++ added L)).same (UniConfKey.concat K L) = true ↔
      K.hastrailingslash = false := by
  rw [concat_eq]
  rcases hK.cases with hplain | ⟨front, hne, hfront, rfl⟩
  · rw [names_plain hplain, hplain.not_slash]
    exact iff_of_true (same_self _) rfl
  · rw [slash_hastrailingslash, names_slash hfront]
    refine iff_of_false ?_ nofun
    intro hsame
    have hlong : UniConfKey.collapse (front ++ [[]] ++ added L) = front ++ [[]] ++ added L := by
      rw [UniConfKey.collapse, if_neg]
      intro heq
      have hlen := congrArg length heq
      have hpos := length_pos_iff.mpr hne
      simp only [length_append, length_singleton] at hlen
      omega
    have hlen := length_of_same hsame
    have hshort := length_collapse_le (front ++ added L)
    rw [hlong] at hlen
    simp only [length_append, length_singleton] at hlen hshort
    omega

theorem append_iff (hh : h.Consistent) (hk : Sees h k o v) (hl : Sees h l p source) (hne : l ≠ k) :
    let K := v.slice o.left o.right
    let L := source.slice p.left p.right
    Makes (fun fuel => h.append fuel k l) h k (UniConfKey.concat K L) ↔
      K.hastrailingslash = false ∧ (h.ref_count o.store ≠ 1 ∨ AppendFits o v K L) := by
  intro K L
  rcases append_cases hh hk hl hne with ⟨hfits, h', hrun, hmade⟩ | ⟨hfits, hnone⟩
  · rw [and_iff_left hfits, hmade.makes_iff hrun]
    exact append_same_iff (hh.shows hk).valid
  · exact iff_of_false (not_makes hnone) fun hboth => hfits hboth.2

/-- An `append` that meets the condition keeps the heap consistent. -/
theorem append_consistent (hh : h.Consistent) (hk : Sees h k o v) (hl : Sees h l p source)
    (hne : l ≠ k) (hslash : hastrailingslash (v.slice o.left o.right) = false)
    (hfits : h.ref_count o.store ≠ 1 ∨
      AppendFits o v (v.slice o.left o.right) (source.slice p.left p.right)) :
    ∃ h', (∀ n, p.right - p.left < n → h.append n k l = some h') ∧ h'.Consistent := by
  rcases append_cases hh hk hl hne with ⟨-, h', hrun, hmade⟩ | ⟨hnot, -⟩
  · refine ⟨h', hrun, hmade.consistent (fun i _ => hh.shows_ i) ?_⟩
    have hplain : UniConfKey.Plain (v.slice o.left o.right) := by
      rcases (hh.shows hk).valid.cases with hplain | ⟨front, -, -, heq⟩
      · exact hplain
      · rw [heq, slash_hastrailingslash] at hslash
        cases hslash
    have hvalid := valid_names_added (v.slice o.left o.right) (source.slice p.left p.right)
    rwa [names_plain hplain] at hvalid
  · exact absurd hfits hnot

end Append

end KeyHeap

end WvStreams
