import WvStreams.UniConf.KeyStore.Append

/-!
# `prepend` of another key

The segments of the key, and all behind them in its store, are moved up to make room. A larger
vector is asked for by the number of segments, which is too small for a key that begins behind the
start of its store. The empty key is no directory before another one, but has a trailing slash in
the concatenation.
-/

namespace WvStreams

open List Option

open SegmentVector

namespace KeyHeap

section Prepend

variable {h : KeyHeap} {k l : Nat} {o p : KeyFields} {v source : SegmentVector}

theorem Ready.prepend (hr : Ready h k l o v p source) (hp : Shows source p) {fuel : Nat}
    (hfuel : p.right - p.left < fuel) (size shift : Nat) :
    let L := source.slice p.left p.right
    ((h.resize k size shift).bind fun h =>
      (KeyHeap.copyFrom (fun o _key j => o.left + j - _key.left) k l fuel p.left h).bind fun h =>
        h.collapse k) =
      (v.resize size shift).bind fun v => (v.putAll o.left (names L)).bind fun v =>
        (h.patch k o v (o.right + (names L).length)).collapse k := by
  intro L
  have hlen : L.length = p.right - p.left := length_slice p.left hp.inside
  obtain ⟨slash, hslash, hsplit⟩ := names_append hp.valid
  have hturns : (names L ++ slash).length < fuel := by
    rw [← hsplit, hlen]
    exact hfuel
  have hindex : ∀ n < (names L).length,
      (fun o _key j => o.left + j - _key.left : KeyFields → KeyFields → Nat → Nat)
        ⟨o.store, o.left, o.right + n⟩ p (p.left + n) = o.left + n := by
    intro n _
    dsimp only
    omega
  rw [hr.resize]
  cases v.resize size shift with
  | none => rfl
  | some v =>
    rw [map_some, bind_some, bind_some,
      hr.copyFrom hslash hsplit hp.inside (plain_names L) hindex hturns]
    cases v.putAll o.left (names L) with
    | none => rfl
    | some v => rfl

theorem prepend_eq {h₁ : KeyHeap} {o₁ : KeyFields} {v₁ : SegmentVector} {fuel : Nat}
    (hp : Shows source p) (hfuel : p.right - p.left < fuel) (hunique : h.unique k = some h₁)
    (hr : Ready h₁ k l o₁ v₁ p source) :
    let m := (names (source.slice p.left p.right)).length
    h.prepend fuel k l = (v₁.resize (m + o₁.right - o₁.left) m).bind fun v =>
      (v.putAll o₁.left (names (source.slice p.left p.right))).bind fun v =>
        (h₁.patch k o₁ v (o₁.right + m)).collapse k := by
  intro m
  have hordered := hp.ordered
  have hinside := hp.inside
  have hread : readRange source p.left (p.right - p.left) = some (source.slice p.left p.right) := by
    have hend : p.left + (p.right - p.left) = p.right := by omega
    rw [readRange_eq (by omega), hend]
  rw [← hr.prepend hp hfuel, KeyHeap.prepend, hunique]
  show (h₁.key l).bind _ = _
  rw [hr.other.key]
  show (h₁.stores p.store).bind _ = _
  rw [hr.other.store]
  show (readRange source p.left (p.right - p.left)).bind _ = _
  rw [hread]
  show (h₁.key k).bind _ = _
  rw [hr.key]
  rfl

/-- There is room to move all that is in use of the vector, or a new one is made for a key that
begins at its start. -/
def PrependFits (o : KeyFields) (v : SegmentVector) (K L : UniConfKey) : Prop :=
  v.used + (names L).length ≤ v.vec.length ∨ v.vec.length < (names L).length + K.length ∧ o.left = 0

theorem resize_prepend {front : UniConfKey} (hv : Shows v o)
    (hfits : front = [] ∨ v.used + front.length ≤ v.vec.length ∨
      v.vec.length < front.length + (o.right - o.left) ∧ o.left = 0) :
    ∃ w w', v.resize (front.length + o.right - o.left) front.length = some w ∧
      w.putAll o.left front = some w' ∧ o.right + front.length ≤ w'.vec.length ∧
      o.right + front.length ≤ w'.used ∧
      w'.slice o.left (o.right + front.length) = front ++ v.slice o.left o.right := by
  have hordered := hv.ordered
  have hused := hv.used
  have hinside := hv.inside
  by_cases hne : front = []
  · subst hne
    have hsize : 0 + o.right - o.left ≤ v.vec.length := by omega
    exact ⟨v, v, resize_fits hsize, rfl, hinside, hused, rfl⟩
  have hpos := length_pos_iff.mpr hne
  -- the larger vector, or the one with its segments moved
  obtain ⟨w, hresize, hroom, hused', hmoved⟩ : ∃ w,
      v.resize (front.length + o.right - o.left) front.length = some w ∧
        o.right + front.length ≤ w.vec.length ∧ o.right + front.length ≤ w.used ∧
        w.slice (o.left + front.length) (o.right + front.length) = v.slice o.left o.right := by
    rcases hfits.resolve_left hne with hfits | ⟨hgrow, hleft⟩
    · refine ⟨_, resize_shift (by omega) hpos hfits, ?_, ?_, ?_⟩
      · simp only [length_append, length_take, length_drop]
        omega
      · exact Nat.add_le_add_right hused _
      · have hslice := slice_moved (v.vec.take front.length)
          (v.vec.drop (v.used + front.length)) o.left (v.used + front.length)
          (by omega : v.used ≤ v.vec.length) hused
        rw [length_take_of_le (by omega)] at hslice
        exact hslice
    · have hkept : v.kept (front.length + o.right - o.left) front.length = o.right := by
        rw [kept]
        omega
      have hgrown : v.resize (front.length + o.right - o.left) front.length = _ :=
        resize_grow (by omega) (by omega)
      rw [hkept] at hgrown
      refine ⟨_, hgrown, ?_, ?_, ?_⟩
      · simp only [length_append, length_replicate, length_take_of_le hinside]
        omega
      · exact Nat.add_le_add_right hused _
      · have hslice := slice_moved (replicate front.length [])
          (replicate (front.length + o.right - o.left - (o.right + front.length)) [])
          o.left (v.used + front.length) hinside (le_refl o.right)
        rw [length_replicate] at hslice
        exact hslice
  have hput : w.putAll o.left front = _ := putAll_eq hne (by omega)
  refine ⟨w, _, hresize, hput, ?_, hused'.trans (le_max_left _ _), ?_⟩
  · simp only [length_append, length_take, length_drop]
    omega
  · rw [slice_put_front (by omega) hordered]
    exact congrArg (front ++ ·) hmoved

theorem Owned.of_prepend (hr : Owned h k o v) {m size : Nat} {front : UniConfKey} {h' : KeyHeap}
    (hrun : ((v.resize size m).bind fun v => (v.putAll o.left front).bind fun v =>
      (h.patch k o v (o.right + m)).collapse k) = some h') {shown : UniConfKey}
    (hshown : h'.value k = some shown) :
    ∃ w, v.resize size m = some w ∧ (shown = [] ∨ o.right + m ≤ w.vec.length ∧
      shown.length = o.right + m - o.left) := by
  obtain ⟨w, hresize, hrest⟩ := bind_eq_some_iff.mp hrun
  obtain ⟨w', hput, hcollapse⟩ := bind_eq_some_iff.mp hrest
  have hready := hr.patch w' (o.right + m)
  have hlen := length_of_putAll hput
  refine ⟨w, hresize, ?_⟩
  rcases hready.of_collapse hcollapse hshown with hnil | ⟨hroom, heq⟩
  · exact .inl hnil
  · refine .inr ⟨hlen ▸ hroom, ?_⟩
    rw [heq, length_slice _ hroom]

theorem length_concat {K L : UniConfKey} (hK : K.Valid) (hL : names L ≠ []) :
    (UniConfKey.concat L K).length = (names L).length + max K.length 1 := by
  have hpos := length_pos_iff.mpr hL
  have hadded := length_added hK
  rw [concat_eq, UniConfKey.collapse, if_neg, length_append, hadded]
  intro heq
  have hlen := congrArg length heq
  rw [length_append, length_singleton] at hlen
  omega

theorem prepend_same_iff {K L : UniConfKey} (hK : K.Valid) (hL : L.Valid) :
    (UniConfKey.collapse (names L ++ K)).same (UniConfKey.concat L K) = true ↔ L = [] ∨ K ≠ [] := by
  by_cases hne : K = []
  · rw [or_iff_left (not_not.mpr hne), hne]
    by_cases hnil : L = []
    · rw [hnil]
      exact iff_of_true (same_self _) rfl
    · refine iff_of_false ?_ hnil
      intro hsame
      have hnames : names L ≠ [] := fun h => hnil ((names_eq_nil hL).mp h)
      have hlen := length_of_same hsame
      have hshort := UniConfKey.length_collapse_le (names L ++ [])
      rw [length_concat UniConfKey.plain_nil.valid hnames] at hlen
      rw [length_append] at hshort
      simp only [length_nil] at hlen hshort
      omega
  · rw [concat_eq, added_of_ne hK hne]
    exact iff_of_true (same_self _) (.inr hne)

theorem prepend_cases (hh : h.Consistent) (hk : Sees h k o v) (hl : Sees h l p source)
    (hne : l ≠ k) :
    let K := v.slice o.left o.right
    let L := source.slice p.left p.right
    (L = [] ∨ h.ref_count o.store ≠ 1 ∨ PrependFits o v K L) ∧
        (∃ h', (∀ n, p.right - p.left < n → h.prepend n k l = some h') ∧
          Made h h' k (UniConfKey.collapse (names L ++ K))) ∨
      ¬ (L = [] ∨ h.ref_count o.store ≠ 1 ∨ PrependFits o v K L) ∧
        ¬ Makes (fun fuel => h.prepend fuel k l) h k (UniConfKey.concat L K) := by
  intro K L
  obtain ⟨h₁, o₁, v₁, hunique, howned, hshows, hslice, hothers, hcase⟩ := hh.own hk
  have hp := hh.shows hl
  have hr : Ready h₁ k l o₁ v₁ p source := ⟨howned, (hothers l hne).sees hl, hne⟩
  have hinside := hshows.inside
  have hordered := hshows.ordered
  have hused := hshows.used
  have hK : K.length = o₁.right - o₁.left := by
    rw [← length_slice o₁.left hinside, hslice]
  have hrun : ∀ n, p.right - p.left < n → h.prepend n k l =
      (v₁.resize ((names L).length + o₁.right - o₁.left) (names L).length).bind fun v =>
      (v.putAll o₁.left (names L)).bind fun v =>
        (h₁.patch k o₁ v (o₁.right + (names L).length)).collapse k :=
    fun n hn => prepend_eq hp hn hunique hr
  have hfits : (L = [] ∨ h.ref_count o.store ≠ 1 ∨ PrependFits o v K L) ↔
      names L = [] ∨ v₁.used + (names L).length ≤ v₁.vec.length ∨
        v₁.vec.length < (names L).length + (o₁.right - o₁.left) ∧ o₁.left = 0 := by
    rw [names_eq_nil hp.valid]
    by_cases hnil : L = []
    · exact iff_of_true (.inl hnil) (.inl hnil)
    have hpos : 0 < (names L).length :=
      length_pos_iff.mpr (mt (names_eq_nil hp.valid).mp hnil)
    rw [or_iff_right hnil, or_iff_right hnil]
    rcases hcase with ⟨hone, rfl, rfl⟩ | ⟨hshared, hleft, hlen, -⟩
    · rw [or_iff_right (not_not.mpr hone), PrependFits, hK]
    · refine iff_of_true (.inl hshared) (.inr ⟨?_, hleft⟩)
      omega
  by_cases hfit : L = [] ∨ h.ref_count o.store ≠ 1 ∨ PrependFits o v K L
  · refine .inl ⟨hfit, ?_⟩
    obtain ⟨w, w', hresize, hput, hroom, hused', hshown⟩ := resize_prepend hshows (hfits.mp hfit)
    obtain ⟨h', hcollapse, hmade⟩ :=
      howned.finish (hordered.trans (Nat.le_add_right _ _)) hroom hused'
    rw [hshown, hslice] at hmade
    refine ⟨h', fun n hn => ?_, hmade.of_untouched hothers⟩
    rw [hrun n hn, hresize, bind_some, hput, bind_some, hcollapse]
  · refine .inr ⟨hfit, fun hmakes => ?_⟩
    rw [hfits, not_or, not_or] at hfit
    obtain ⟨hnames, hshort, hgrow⟩ := hfit
    have hpos := length_pos_iff.mpr hnames
    obtain ⟨n, h', shown, hn, hsome, hshown, hsame⟩ := hmakes.result (p.right - p.left)
    have hlen := length_of_same hsame
    rw [length_concat (hh.shows hk).valid hnames] at hlen
    rw [hrun n hn] at hsome
    obtain ⟨w, hresize, hshape⟩ := howned.of_prepend hsome hshown
    rcases hshape with rfl | ⟨hroom, hshape⟩
    · rw [length_nil] at hlen
      omega
    by_cases hle : (names L).length + o₁.right - o₁.left ≤ v₁.vec.length
    · -- what is in use is moved behind the end of the vector
      rw [resize_overrun hle hpos (by omega) (by omega)] at hresize
      cases hresize
    · -- the larger vector has no room for the segments before the key
      rw [resize_grow (by omega) (by omega)] at hresize
      obtain rfl := some.inj hresize
      have hkept : v₁.kept ((names L).length + o₁.right - o₁.left) (names L).length ≤
          v₁.vec.length := (min_le_left _ _).trans (min_le_right _ _)
      simp only [length_append, length_replicate, length_take_of_le hkept] at hroom
      rw [kept] at hroom
      omega

theorem prepend_iff (hh : h.Consistent) (hk : Sees h k o v) (hl : Sees h l p source) (hne : l ≠ k) :
    let K := v.slice o.left o.right
    let L := source.slice p.left p.right
    Makes (fun fuel => h.prepend fuel k l) h k (UniConfKey.concat L K) ↔
      L = [] ∨ K ≠ [] ∧ (h.ref_count o.store ≠ 1 ∨ PrependFits o v K L) := by
  intro K L
  rw [or_and_left]
  rcases prepend_cases hh hk hl hne with ⟨hfits, h', hrun, hmade⟩ | ⟨hfits, hnot⟩
  · rw [and_iff_left hfits, hmade.makes_iff hrun]
    exact prepend_same_iff (hh.shows hk).valid (hh.shows hl).valid
  · exact iff_of_false hnot fun hboth => hfits hboth.2

theorem prepend_consistent (hh : h.Consistent) (hk : Sees h k o v) (hl : Sees h l p source)
    (hne : l ≠ k) (hfits : source.slice p.left p.right = [] ∨ h.ref_count o.store ≠ 1 ∨
      PrependFits o v (v.slice o.left o.right) (source.slice p.left p.right)) :
    ∃ h', (∀ n, p.right - p.left < n → h.prepend n k l = some h') ∧ h'.Consistent := by
  rcases prepend_cases hh hk hl hne with ⟨-, h', hrun, hmade⟩ | ⟨hnot, -⟩
  · refine ⟨h', hrun, hmade.consistent (fun i _ => hh.shows_ i) ?_⟩
    obtain ⟨slash, hslash, hsplit⟩ := names_append (hh.shows hk).valid
    rw [hsplit, ← append_assoc]
    exact valid_collapse ((plain_names _).append (plain_names _)) hslash
  · exact absurd hfits hnot

end Prepend

end KeyHeap

end WvStreams
