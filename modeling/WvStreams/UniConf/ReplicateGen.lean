import WvStreams.UniConf.RecursiveIter

/-!
# `UniReplicateGen`

An ordered list of generators that are kept the same. `replicate` copies pairwise: the keys of
the first generator to all others, then of each other one the keys that the first does not have.
While it is under way every generator holds `Blend`: a map `F` that all share by then, and its own
old content where `F` has nothing. Each pass of the loop adds the next generator to `F`
(`blend_pass`), so in the end all are the old overlay (`replicate_get`). From then on the
announcements of one generator carry a change to the others (`innerSet_agree`).
-/

namespace WvStreams

open Lib UniTempGen List

def UniTempGen.isok (_ : UniTempGen) : Bool := true

/-- The inner generators, and the announcements that were passed on so far. A generator is ok from
the beginning, so its `was_ok` is true and `replicate_if_any_have_become_ok` finds none to do. -/
structure UniReplicateGen where
  gens : List UniTempGen
  deltas : List Delta

namespace UniReplicateGen

def inner (r : UniReplicateGen) (i : Nat) : UniTempGen := r.gens.getD i .empty

def first_ok (r : UniReplicateGen) : Option Nat := r.gens.findIdx? UniTempGen.isok

/-- All others take the value. What they announce meanwhile is dropped, as
`processing_callback` is set. -/
def deltacallback (src_gen : Nat) (r : UniReplicateGen) (d : Delta) : UniReplicateGen where
  gens := r.gens.mapIdx fun j g =>
    if !g.isok then g else if j ≠ src_gen then (g.set d.key d.value).1 else g
  deltas := r.deltas ++ [d]

/-- A call of `set` of one inner generator, each announcement of which is followed. -/
def innerSet (r : UniReplicateGen) (i : Nat) (key : UniConfKey) (value : WvString) :
    UniReplicateGen :=
  let (g, ds) := (r.inner i).set key value
  ds.foldl (deltacallback i) { r with gens := r.gens.set i g }

def set (r : UniReplicateGen) (key : UniConfKey) (value : WvString) : UniReplicateGen :=
  match r.first_ok with
  | none => r
  | some first => r.innerSet first key value

/-- The `setv` of a `UniTempGen` is one `set` after the other. -/
def setv (r : UniReplicateGen) (pairs : List UniConfPair) : UniReplicateGen :=
  match r.first_ok with
  | none => r
  | some first => pairs.foldl (fun r pair => r.innerSet first pair.key pair.value) r

def get (r : UniReplicateGen) (key : UniConfKey) : WvString :=
  match r.first_ok with
  | none => none
  | some first => (r.inner first).get key

/-- One key of the iterator over generator `j`. -/
def replicateKey (first : Option Nat) (j : Nat) (key : UniConfKey) (value : WvString)
    (r : UniReplicateGen) : UniReplicateGen :=
  match first with
  | none => r
  | some first =>
    if j = first then deltacallback first r ⟨key, value⟩
    else if !(r.inner first).exists_ key then r.innerSet first key value
    else r

/-- The iterators are live: the loop changes the generators while it goes over them. -/
def replicate (r : UniReplicateGen) (key : UniConfKey := []) : UniReplicateGen :=
  let first := r.first_ok
  (List.range r.gens.length).foldl (fun r j =>
    if !(r.inner j).isok then r
    else UniTempGen.walk (fun r => r.inner j) (replicateKey first j) (r.inner j).depth key r) r

def create (gens : List UniTempGen) : UniReplicateGen := replicate ⟨gens, []⟩

def prepend (r : UniReplicateGen) (gen : UniTempGen) : UniReplicateGen :=
  replicate { r with gens := gen :: r.gens }

def append (r : UniReplicateGen) (gen : UniTempGen) : UniReplicateGen :=
  replicate { r with gens := r.gens ++ [gen] }

inductive Op where
  | prepend (gen : UniTempGen)
  | append (gen : UniTempGen)
  | set (key : UniConfKey) (value : WvString)
  | setv (pairs : List UniConfPair)
  | innerSet (i : Nat) (key : UniConfKey) (value : WvString)

def op (r : UniReplicateGen) : Op → UniReplicateGen
  | .prepend gen => r.prepend gen
  | .append gen => r.append gen
  | .set key value => r.set key value
  | .setv pairs => r.setv pairs
  | .innerSet i key value => if i < r.gens.length then r.innerSet i key value else r

def run (r : UniReplicateGen) (os : List Op) : UniReplicateGen := os.foldl op r

/-- All generators have the same values off the root. -/
def Agree (r : UniReplicateGen) : Prop :=
  ∀ g ∈ r.gens, ∀ h ∈ r.gens, ∀ p, p ≠ [] → g.content p = h.content p

/-- At the path `p` each generator has the value of `F`, or its old one where `F` has none. -/
def Blend (old : UniReplicateGen) (F : PathMap Segment Str) (p : List Segment)
    (r : UniReplicateGen) : Prop :=
  ∀ i, i < old.gens.length → (r.inner i).content p = (F p).or ((old.inner i).content p)

/-- Off the root each generator has `v` written at `k`. -/
structure Writes (k : List Segment) (v : Str) (r r' : UniReplicateGen) : Prop where
  length : r'.gens.length = r.gens.length
  content : ∀ i, i < r.gens.length → ∀ p, p ≠ [] →
    (r'.inner i).content p = Function.update (r.inner i).content k (some v) p

variable {r : UniReplicateGen}

theorem first_ok_of_pos (h : 0 < r.gens.length) : r.first_ok = some 0 := by
  unfold first_ok
  cases hg : r.gens with
  | nil =>
    rw [hg] at h
    cases h
  | cons g gs => rfl

theorem length_deltacallback (src : Nat) (r : UniReplicateGen) (d : Delta) :
    (deltacallback src r d).gens.length = r.gens.length := length_mapIdx

theorem inner_deltacallback (src : Nat) (r : UniReplicateGen) (d : Delta) {j : Nat}
    (hj : j < r.gens.length) : (deltacallback src r d).inner j =
      if j ≠ src then ((r.inner j).set d.key d.value).1 else r.inner j := by
  simp [inner, deltacallback, isok, getD_eq_getElem?_getD, hj]

theorem length_foldl_deltacallback (src : Nat) (r : UniReplicateGen) (ds : List Delta) :
    (ds.foldl (deltacallback src) r).gens.length = r.gens.length := by
  induction ds generalizing r with
  | nil => rfl
  | cons d ds ih => rw [foldl_cons, ih, length_deltacallback]

theorem inner_foldl_deltacallback (src : Nat) (r : UniReplicateGen) {ds : List Delta}
    (hds : ∀ d ∈ ds, d.key.Plain) {j : Nat} (hj : j < r.gens.length) :
    ((ds.foldl (deltacallback src) r).inner j).content =
      if j ≠ src then PathMap.assigns [] (r.inner j).content (ds.map Delta.note)
      else (r.inner j).content := by
  induction ds generalizing r with
  | nil => simp
  | cons d ds ih =>
    obtain ⟨hd, hds⟩ := forall_mem_cons.mp hds
    rw [foldl_cons, ih _ hds (by rwa [length_deltacallback]), inner_deltacallback src r d hj]
    by_cases hsrc : j = src
    · simp [hsrc]
    · rw [if_pos hsrc, if_pos hsrc, if_pos hsrc, content_set, refSet, hd.not_slash]
      rfl

theorem length_innerSet (r : UniReplicateGen) (i : Nat) (key : UniConfKey) (value : WvString) :
    (r.innerSet i key value).gens.length = r.gens.length := by
  unfold innerSet
  rw [length_foldl_deltacallback, length_set]

theorem inner_innerSet (r : UniReplicateGen) (i : Nat) (key : UniConfKey) (value : WvString)
    {j : Nat} (hj : j < r.gens.length) : ((r.innerSet i key value).inner j).content =
      if j ≠ i then
        PathMap.assigns [] (r.inner j).content (((r.inner i).set key value).2.map Delta.note)
      else ((r.inner i).set key value).1.content := by
  unfold innerSet
  rw [inner_foldl_deltacallback i _ (fun d hd => (mem_set hd).1) (by simpa using hj)]
  by_cases hji : j = i
  · subst hji
    simp [inner, getD_eq_getElem?_getD, hj]
  · simp [inner, getD_eq_getElem?_getD, hji, Ne.symm hji]

theorem writes_deltacallback {src : Nat} {key : UniConfKey} {v : Str} (hkey : key.Plain)
    (hsrc : (r.inner src).content key.path = some v)
    (hup : ∀ i, i < r.gens.length → ∀ p, p ≠ [] → p <+: key.path → p ≠ key.path →
      (r.inner i).content p ≠ none) :
    Writes key.path v r (deltacallback src r ⟨key, some v⟩) where
  length := length_deltacallback src r _
  content := by
    intro i hi p hp
    rw [inner_deltacallback src r _ hi]
    by_cases his : i = src
    · subst his
      rw [if_neg (not_not.mpr rfl), ← hsrc, Function.update_eq_self]
    · rw [if_pos his, content_set, refSet, hkey.not_slash]
      exact PathMap.assign_apply [] (hup i hi p hp) v

theorem writes_innerSet {i : Nat} (hi : i < r.gens.length) {key : UniConfKey} {v : Str}
    (hkey : key.Plain) (hne : key.path ≠ []) (hnew : (r.inner i).content key.path ≠ some v)
    (hup : ∀ i, i < r.gens.length → ∀ p, p ≠ [] → p <+: key.path → p ≠ key.path →
      (r.inner i).content p ≠ none) :
    Writes key.path v r (r.innerSet i key (some v)) where
  length := length_innerSet r i key _
  content := by
    have hself : ∀ p, p ≠ [] → ((r.inner i).set key (some v)).1.content p =
        Function.update (r.inner i).content key.path (some v) p := by
      intro p hp
      rw [content_set, refSet, hkey.not_slash]
      exact PathMap.assign_apply [] (hup i hi p hp) v
    intro j hj p hp
    rw [inner_innerSet r i key _ hj]
    by_cases hji : j = i
    · rw [if_neg (not_not.mpr hji), hji]
      exact hself p hp
    · rw [if_pos hji]
      exact (steps_set (r.inner i) key (some v)).assigns_write []
        (content_closed _) hne hself hnew (content_closed _) (hup j hj) hp

section

variable {old : UniReplicateGen} {E G : PathMap Segment Str} {j : Nat}

variable {r : UniReplicateGen}

theorem Blend.congr {F F' : PathMap Segment Str} {p : List Segment} (h : Blend old F p r)
    (hF : F p = F' p) : Blend old F' p r := fun i hi => hF ▸ h i hi

/-- What holds while the iterator goes over generator `j`: each path has the value of before the
pass, or already that of after it. -/
structure Passing (old : UniReplicateGen) (E G : PathMap Segment Str) (r : UniReplicateGen) :
    Prop where
  length : r.gens.length = old.gens.length
  blend : ∀ p, p ≠ [] → Blend old E p r ∨ Blend old G p r

theorem Passing.content (hG : ∀ p, G p = (E p).or ((old.inner j).content p))
    (hj : j < old.gens.length) (h : Passing old E G r) {p : List Segment} (hp : p ≠ []) :
    (r.inner j).content p = G p := by
  rcases h.blend p hp with h | h
  · rw [h j hj, hG]
  · rw [h j hj, hG, Option.or_assoc, Option.or_self]

theorem Passing.writes {r' : UniReplicateGen} (h : Passing old E G r) {k : List Segment} {v : Str}
    (hk : k ≠ []) (hv : G k = some v) (hw : Writes k v r r') :
    Passing old E G r' ∧ Blend old G k r' ∧ ∀ p, p ≠ [] → Blend old G p r → Blend old G p r' := by
  have hlt : ∀ {i}, i < old.gens.length → i < r.gens.length := fun hi => h.length ▸ hi
  have hself : Blend old G k r' := by
    intro i hi
    rw [hw.content i (hlt hi) k hk, Function.update_self, hv]
    rfl
  have hother : ∀ {F : PathMap Segment Str} {p}, p ≠ [] → p ≠ k → Blend old F p r →
      Blend old F p r' := by
    intro F p hp hpk hb i hi
    rw [hw.content i (hlt hi) p hp, Function.update_of_ne hpk]
    exact hb i hi
  refine ⟨⟨hw.length.trans h.length, ?_⟩, hself, ?_⟩
  · intro p hp
    by_cases hpk : p = k
    · exact Or.inr (hpk ▸ hself)
    · exact (h.blend p hp).imp (hother hp hpk) (hother hp hpk)
  · intro p hp hb
    by_cases hpk : p = k
    · exact hpk ▸ hself
    · exact hother hp hpk hb

theorem passing_key (hG : ∀ p, G p = (E p).or ((old.inner j).content p))
    (hj : j < old.gens.length) (hE : j = 0 ∨ ∀ p, (E p).or ((old.inner 0).content p) = E p)
    (h : Passing old E G r) {key : UniConfKey} {v : Str} (hkey : key.Plain) (hne : key.path ≠ [])
    (hv : G key.path = some v)
    (hup : ∀ p, p ≠ [] → p <+: key.path → p ≠ key.path → Blend old G p r) :
    let r' := replicateKey (some 0) j key (some v) r
    Passing old E G r' ∧ Blend old G key.path r' ∧
      ∀ p, p ≠ [] → Blend old G p r → Blend old G p r' := by
  intro r'
  have hlen := h.length
  have hpresent : ∀ i, i < r.gens.length → ∀ p, p ≠ [] → p <+: key.path → p ≠ key.path →
      (r.inner i).content p ≠ none := by
    intro i hi p hp hpre hself
    rw [hup p hp hpre hself i (hlen ▸ hi)]
    -- `G` is the content of generator `j`, which has the ancestors of its keys
    have hGp : G p ≠ none := by
      rw [← h.content hG hj hp]
      intro hnone
      obtain ⟨q, hq⟩ := hpre
      have := (r.inner j).content_closed p q hnone
      rw [hq, h.content hG hj hne, hv] at this
      cases this
    obtain ⟨x, hx⟩ := Option.ne_none_iff_exists'.mp hGp
    simp [hx]
  by_cases hj0 : j = 0
  · have hr' : r' = deltacallback 0 r ⟨key, some v⟩ := if_pos hj0
    rw [hr']
    apply h.writes hne hv
    apply writes_deltacallback hkey _ hpresent
    rw [← hj0, h.content hG hj hne, hv]
  · have h0 : 0 < old.gens.length := by omega
    have hE0 : ∀ p, (E p).or ((old.inner 0).content p) = E p := hE.resolve_left hj0
    have hget : (r.inner 0).exists_ key = ((r.inner 0).content key.path).isSome := by
      rw [exists_, get_of_plain _ hkey]
    have hr' : r' = if !(r.inner 0).exists_ key then r.innerSet 0 key (some v) else r := if_neg hj0
    cases hold : (r.inner 0).content key.path with
    | none =>
      have hset : r' = r.innerSet 0 key (some v) := by
        rw [hr', hget, hold]
        rfl
      rw [hset]
      exact h.writes hne hv (writes_innerSet (hlen ▸ h0) hkey hne (by simp [hold]) hpresent)
    | some x =>
      have hsame : r' = r := by
        rw [hr', hget, hold]
        rfl
      rw [hsame]
      refine ⟨h, ?_, fun p _ hb => hb⟩
      -- what the first generator has is `E`'s, so there `G` is like `E`
      rcases h.blend _ hne with hb | hb
      · apply hb.congr
        rw [hb 0 h0, hE0] at hold
        rw [hG, hold]
        rfl
      · exact hb

theorem blend_pass (hG : ∀ p, G p = (E p).or ((old.inner j).content p)) (hj : j < old.gens.length)
    (hE : j = 0 ∨ ∀ p, (E p).or ((old.inner 0).content p) = E p)
    (hlen : r.gens.length = old.gens.length) (hr : ∀ p, p ≠ [] → Blend old E p r) :
    let r' := walk (fun r => r.inner j) (replicateKey (some 0) j) (r.inner j).depth [] r
    r'.gens.length = old.gens.length ∧ ∀ p, p ≠ [] → Blend old G p r' := by
  have hstart : Passing old E G r := ⟨hlen, fun p hp => Or.inl (hr p hp)⟩
  obtain ⟨hI, -, hall⟩ := walk_spec (fun r : UniReplicateGen => r.inner j)
    (replicateKey (some 0) j) (C := G) (I := Passing old E G)
    (Q := fun p r => p ≠ [] → Blend old G p r)
    (fun s hs p hp => hs.content hG hj hp)
    (by
      intro s key v hs hkey hne hv hup
      obtain ⟨h1, h2, h3⟩ := passing_key hG hj hE hs hkey hne hv
        fun p hp hpre hself => hup p hp hpre hself hp
      exact ⟨h1, fun _ => h2, fun p hQ hp => h3 p hp (hQ hp)⟩)
    (r.inner j).depth UniConfKey.plain_nil hstart
    (fun p hp hpre => absurd (prefix_nil.mp hpre) hp)
  refine ⟨hI.length, ?_⟩
  intro p hp
  cases hGp : G p with
  | none =>
    rcases hI.blend p hp with hb | hb
    · apply hb.congr
      rw [hG, Option.or_eq_none_iff] at hGp
      rw [hGp.1, hG, hGp.1, hGp.2]
      rfl
    · exact hb
  | some v =>
    have hnone : G ([] ++ p) ≠ none := by simp [hGp]
    apply hall p hp _ hnone hp
    apply length_le_depth
    rw [hstart.content hG hj hp, hGp]
    exact Option.some_ne_none v

end

theorem inner_eq {i : Nat} (hi : i < r.gens.length) : r.gens[i] = r.inner i := by
  simp [inner, getD_eq_getElem?_getD, hi]

/-- What the first `j` generators have. -/
def overlay (r : UniReplicateGen) (j : Nat) : PathMap Segment Str :=
  fun p => (List.range j).findSome? fun i => (r.inner i).content p

theorem overlay_succ (r : UniReplicateGen) (j : Nat) (p : List Segment) :
    r.overlay (j + 1) p = (r.overlay j p).or ((r.inner j).content p) := by
  unfold overlay
  rw [range_succ, findSome?_append, findSome?_singleton]

theorem overlay_first (r : UniReplicateGen) {j : Nat} (hj : j ≠ 0) (p : List Segment) :
    (r.overlay j p).or ((r.inner 0).content p) = r.overlay j p := by
  obtain ⟨j, rfl⟩ := Nat.exists_eq_succ_of_ne_zero hj
  cases h : (r.inner 0).content p with
  | none => exact Option.or_none
  | some x =>
    have hx : r.overlay (j + 1) p = some x := by
      rw [overlay, range_succ_eq_map, findSome?_cons, h]
    rw [hx]
    rfl

theorem overlay_length (r : UniReplicateGen) (p : List Segment) :
    r.overlay r.gens.length p = r.gens.findSome? fun g => g.content p := by
  have hmap : (range r.gens.length).map r.inner = r.gens := by
    apply ext_getElem
    · simp
    · intro i _ hi
      rw [getElem_map, getElem_range, inner_eq hi]
  conv_rhs => rw [← hmap, findSome?_map]
  rfl

theorem blend_replicate (r : UniReplicateGen) :
    (replicate r).gens.length = r.gens.length ∧
      ∀ p, p ≠ [] → Blend r (r.overlay r.gens.length) p (replicate r) := by
  have hloop : ∀ n, n ≤ r.gens.length →
      let r' := (range n).foldl (fun s j =>
        if !(s.inner j).isok then s
        else walk (fun s => s.inner j) (replicateKey r.first_ok j)
          (s.inner j).depth [] s) r
      r'.gens.length = r.gens.length ∧ ∀ p, p ≠ [] → Blend r (r.overlay n) p r' := by
    intro n
    induction n with
    | zero => exact fun _ => ⟨rfl, fun p _ i _ => rfl⟩
    | succ n ih =>
      intro hn
      obtain ⟨hlen, hblend⟩ := ih (by omega)
      rw [range_succ, foldl_concat, first_ok_of_pos (by omega)] at *
      apply blend_pass (fun p => r.overlay_succ n p) hn _ hlen hblend
      by_cases h0 : n = 0
      · exact Or.inl h0
      · exact Or.inr fun p => r.overlay_first h0 p
  exact hloop _ (Nat.le_refl _)

theorem content_replicate (r : UniReplicateGen) {g : UniTempGen} (hg : g ∈ (replicate r).gens)
    {p : List Segment} (hp : p ≠ []) : g.content p = r.gens.findSome? fun g => g.content p := by
  obtain ⟨hlen, hblend⟩ := blend_replicate r
  obtain ⟨i, hi, rfl⟩ := mem_iff_getElem.mp hg
  have hir : i < r.gens.length := hlen ▸ hi
  rw [inner_eq hi, hblend p hp i hir, r.overlay_length p]
  cases h : r.gens.findSome? fun g => g.content p with
  | some x => rfl
  | none =>
    rw [findSome?_eq_none_iff] at h
    rw [← inner_eq hir]
    exact h _ (getElem_mem hir)

theorem agree_iff (r : UniReplicateGen) : r.Agree ↔
    ∀ i, i < r.gens.length → ∀ j, j < r.gens.length → ∀ p, p ≠ [] →
      (r.inner i).content p = (r.inner j).content p := by
  constructor
  · intro h i hi j hj
    rw [← inner_eq hi, ← inner_eq hj]
    exact h _ (getElem_mem hi) _ (getElem_mem hj)
  · intro h g hg k hk
    obtain ⟨i, hi, rfl⟩ := mem_iff_getElem.mp hg
    obtain ⟨j, hj, rfl⟩ := mem_iff_getElem.mp hk
    rw [inner_eq hi, inner_eq hj]
    exact h i hi j hj

theorem agree_replicate (r : UniReplicateGen) : (replicate r).Agree := by
  intro g hg h hh p hp
  rw [content_replicate r hg hp, content_replicate r hh hp]

theorem agree_innerSet (h : r.Agree) {i : Nat} (hi : i < r.gens.length) (key : UniConfKey)
    (value : WvString) : (r.innerSet i key value).Agree := by
  have hsame : ∀ j, j < r.gens.length → ∀ p, p ≠ [] → ((r.innerSet i key value).inner j).content p =
        ((r.inner i).set key value).1.content p := by
    intro j hj p hp
    rw [inner_innerSet r i key value hj]
    by_cases hji : j = i
    · rw [if_neg (not_not.mpr hji)]
    · rw [if_pos hji]
      exact (steps_set (r.inner i) key value).assigns_eq [] (content_closed _)
        ((agree_iff r).mp h j hj i hi p hp)
  rw [agree_iff, length_innerSet]
  intro j hj k hk p hp
  rw [hsame j hj p hp, hsame k hk p hp]

theorem agree_innerSets (h : r.Agree) {i : Nat} (hi : i < r.gens.length)
    (pairs : List UniConfPair) :
    (pairs.foldl (fun r pair => r.innerSet i pair.key pair.value) r).Agree := by
  induction pairs generalizing r with
  | nil => exact h
  | cons pair pairs ih =>
    exact ih (agree_innerSet h hi pair.key pair.value) (by rwa [length_innerSet])

theorem agree_op (h : r.Agree) (o : Op) : (r.op o).Agree := by
  cases o with
  | prepend gen | append gen => exact agree_replicate _
  | set key value =>
    show (r.set key value).Agree
    unfold set
    rcases Nat.eq_zero_or_pos r.gens.length with h0 | hpos
    · rw [first_ok, length_eq_zero_iff.mp h0]
      exact h
    · rw [first_ok_of_pos hpos]
      exact agree_innerSet h hpos key value
  | setv pairs =>
    show (r.setv pairs).Agree
    unfold setv
    rcases Nat.eq_zero_or_pos r.gens.length with h0 | hpos
    · rw [first_ok, length_eq_zero_iff.mp h0]
      exact h
    · rw [first_ok_of_pos hpos]
      exact agree_innerSets h hpos pairs
  | innerSet i key value =>
    show (if i < r.gens.length then r.innerSet i key value else r).Agree
    split
    · rename_i hi
      exact agree_innerSet h hi key value
    · exact h

/-- After any calls all generators have the same value at every key but the root, which is what
`get` finds, and `replicate` gives it that of the first generator that has one. -/
theorem replicas_agree (gens : List UniTempGen) (os : List Op) :
    let r := (create gens).run os
    (∀ key : UniConfKey, key.path ≠ [] → ∀ g ∈ r.gens,
      r.get key = g.get key ∧ ∀ h ∈ r.gens, g.get key = h.get key) ∧
      ∀ r : UniReplicateGen, ∀ g ∈ (replicate r).gens, ∀ key : UniConfKey, key.path ≠ [] →
        g.get key = r.gens.findSome? fun h => h.get key := by
  intro r
  have hrun : ∀ (os : List Op) {r : UniReplicateGen}, r.Agree → (r.run os).Agree := by
    intro os
    induction os with
    | nil => exact fun h => h
    | cons o os ih => exact fun h => ih (agree_op h o)
  constructor
  · intro key hkey g hg
    have hagree : ∀ h ∈ r.gens, g.get key = h.get key := by
      intro h hh
      have hcontent := hrun os (agree_replicate ⟨gens, []⟩) g hg h hh key.path hkey
      simp only [get_eq, refGet, hcontent]
    have hpos : 0 < r.gens.length := length_pos_of_mem hg
    refine ⟨?_, hagree⟩
    rw [get, first_ok_of_pos hpos]
    exact (hagree _ (inner_eq hpos ▸ getElem_mem hpos)).symm
  · intro r g hg key hkey
    simp only [get_eq, refGet]
    split
    · symm
      rw [findSome?_eq_none_iff]
      exact fun _ _ => rfl
    · exact content_replicate r hg hkey

end UniReplicateGen

end WvStreams
