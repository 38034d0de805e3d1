import WvStreams.UniConf.Filter.FilterGen

/-!
# Recursive iterators

What `recursiveiterator` gives for a `UniTempGen`: the keys below the top that exist, with
their values (`mem_recursiveiterator`, `recursiveiterator_complete`).
-/

namespace WvStreams

open Lib UniConfKey List

namespace UniTempGen

def depth (g : UniTempGen) : Nat := g.root.elim 0 Lib.Tree.height

variable {g : UniTempGen} {top : UniConfKey}

theorem length_le_depth {p : List Segment} (h : g.content p ≠ none) : p.length ≤ g.depth := by
  unfold content at h
  unfold depth
  cases hroot : g.root with
  | none =>
    rw [hroot] at h
    exact absurd rfl h
  | some root =>
    rw [hroot] at h
    exact Tree.length_le_height h

open UniTempGen

theorem gen_iterator (g : UniTempGen) (key : UniConfKey) :
    (gen.iterator key g).getD [] = (g.iterator key).map fun c => (c.1, some c.2) := by
  show ((g.root.bind fun root => UniConfTree.find root key).map _).getD [] = _
  unfold iterator
  cases g.root with
  | none => rfl
  | some root =>
    dsimp only [Option.bind_some]
    cases UniConfTree.find root key with
    | none => rfl
    | some node =>
      rw [map_map]
      rfl

theorem child_key (htop : top.Plain) {c : Segment × Str} (hc : c ∈ g.iterator top) :
    top.concat [c.1] = top ++ [c.1] ∧
      Plain (top ++ [c.1]) ∧ g.content (path (top ++ [c.1])) = some c.2 := by
  have hne := ne_nil_of_mem_iterator hc
  have hplain : Plain (top ++ [c.1]) := htop.concat hne
  refine ⟨concat_name htop hne, hplain, ?_⟩
  rw [path_concat top hne rfl]
  exact ((g.lists_iterator top).mem (fold c.1) c.2).mp ⟨c.1, rfl, hc⟩

theorem mem_recursiveiterator {depth : Nat} (htop : top.Plain) {e : UniConfKey × WvString}
    (he : e ∈ gen.recursiveiterator depth top g) :
    (∃ q, q ≠ [] ∧ e.1 = top ++ q) ∧ e.1.Plain ∧ e.2 = g.content e.1.path ∧ e.2 ≠ none := by
  induction depth generalizing top with
  | zero => cases he
  | succ depth ih =>
    rw [IUniConfGen.recursiveiterator, gen_iterator, flatMap_map] at he
    obtain ⟨c, hc, he⟩ := mem_flatMap.mp he
    obtain ⟨hkey, hplain, hval⟩ := child_key htop hc
    simp only [hkey] at he
    rcases mem_cons.mp he with rfl | he
    · have hget : gen.get (top ++ [c.1]) g = g.content (path (top ++ [c.1])) :=
        get_of_plain g hplain
      refine ⟨⟨[c.1], by simp, rfl⟩, hplain, hget, ?_⟩
      rw [hget, hval]
      simp
    · obtain ⟨⟨q, -, hq⟩, hrest⟩ := ih hplain he
      refine ⟨⟨c.1 :: q, by simp, ?_⟩, hrest⟩
      rw [hq, append_assoc, singleton_append]

theorem recursiveiterator_complete {depth : Nat} (htop : top.Plain) {p : List Segment}
    (hp : p ≠ []) (hlen : p.length ≤ depth) (h : g.content (top.path ++ p) ≠ none) :
    ∃ e ∈ gen.recursiveiterator depth top g, e.1.path = top.path ++ p := by
  induction depth generalizing top p with
  | zero => exact absurd (length_eq_zero_iff.mp (Nat.le_zero.mp hlen)) hp
  | succ depth ih =>
    obtain ⟨s, p, rfl⟩ := exists_cons_of_ne_nil hp
    have happ : top.path ++ s :: p = (top.path ++ [s]) ++ p := by simp
    have hchild : g.content (top.path ++ [s]) ≠ none := by
      intro hnone
      rw [happ] at h
      exact h (g.content_closed _ p hnone)
    obtain ⟨v, hv⟩ := Option.ne_none_iff_exists'.mp hchild
    obtain ⟨name, rfl, hc⟩ := ((g.lists_iterator top).mem s v).mpr hv
    obtain ⟨hkey, hplain, -⟩ := child_key htop hc
    have hpath : path (top ++ [name]) = top.path ++ [fold name] :=
      path_concat top (ne_nil_of_mem_iterator hc) rfl
    have hmem : ∀ e, (e = (top ++ [name], gen.get (top ++ [name]) g) ∨
        e ∈ gen.recursiveiterator depth (top ++ [name]) g) →
          e ∈ gen.recursiveiterator (depth + 1) top g := by
      intro e he
      rw [IUniConfGen.recursiveiterator, gen_iterator, flatMap_map, mem_flatMap]
      refine ⟨(name, v), hc, ?_⟩
      simp only [hkey]
      exact mem_cons.mpr he
    cases p with
    | nil => exact ⟨_, hmem _ (Or.inl rfl), hpath⟩
    | cons t p =>
      obtain ⟨e, he, hpath'⟩ := ih hplain (p := t :: p) (by simp) (by simpa using hlen) (by
        rwa [hpath, ← happ])
      refine ⟨e, hmem e (Or.inr he), ?_⟩
      rw [hpath', hpath, happ]

section

variable {S : Type} (gen : S → UniTempGen)

/-- A loop over the recursive iterator of a generator, whose body gets each key with its value.
The children of a key are listed when the key is entered, after the body had it. -/
def walk (body : UniConfKey → WvString → S → S) : Nat → UniConfKey → S → S
  | 0, _, s => s
  | depth + 1, top, s =>
    ((gen s).iterator top).foldl (fun s c =>
      let key := UniConfKey.concat top [c.1]
      walk body depth key (body key ((gen s).get key) s)) s

/-- Where the content below the root stays `C`, and the body makes `Q` true of its key once it is
true of those above, it becomes true of all keys below the top. -/
theorem walk_spec (body : UniConfKey → WvString → S → S) {C : PathMap Segment Str}
    {I : S → Prop} {Q : List Segment → S → Prop}
    (hC : ∀ s, I s → ∀ p, p ≠ [] → (gen s).content p = C p)
    (hbody : ∀ s (key : UniConfKey) v, I s → key.Plain → key.path ≠ [] → C key.path = some v →
      (∀ p, p ≠ [] → p <+: key.path → p ≠ key.path → Q p s) →
      I (body key (some v) s) ∧ Q key.path (body key (some v) s) ∧
        ∀ p, Q p s → Q p (body key (some v) s))
    (depth : Nat) {top : UniConfKey} (htop : top.Plain) {s : S} (hs : I s)
    (hup : ∀ p, p ≠ [] → p <+: top.path → Q p s) :
    I (walk gen body depth top s) ∧ (∀ p, Q p s → Q p (walk gen body depth top s)) ∧
      ∀ p, p ≠ [] → p.length ≤ depth → C (top.path ++ p) ≠ none →
        Q (top.path ++ p) (walk gen body depth top s) := by
  induction depth generalizing top s with
  | zero =>
    refine ⟨hs, fun _ h => h, fun p hp hlen => ?_⟩
    exact absurd (length_eq_zero_iff.mp (Nat.le_zero.mp hlen)) hp
  | succ depth ih =>
    have hlists := (gen s).lists_iterator top
    have hCs := hC s hs
    -- `done` lists the children that the loop has passed
    have hloop : ∀ (cs : List (Segment × Str)) (t : S), (∀ c ∈ cs, c ∈ (gen s).iterator top) →
        I t → (∀ p, p ≠ [] → p <+: top.path → Q p t) → let t' := cs.foldl (fun s c =>
          let key := top.concat [c.1]
          walk gen body depth key (body key ((gen s).get key) s)) t
        I t' ∧ (∀ p, Q p t → Q p t') ∧ ∀ c ∈ cs, ∀ p, p.length ≤ depth →
          C (top.path ++ fold c.1 :: p) ≠ none → Q (top.path ++ fold c.1 :: p) t' := by
      intro cs
      induction cs with
      | nil => exact fun t _ ht _ => ⟨ht, fun _ h => h, nofun⟩
      | cons c cs ihcs =>
        intro t hcs ht hupt
        have hc := hcs c mem_cons_self
        have hne := ne_nil_of_mem_iterator hc
        have hplain : Plain (top ++ [c.1]) := htop.concat hne
        have hkey : top.concat [c.1] = top ++ [c.1] := concat_name htop hne
        have hpath : path (top ++ [c.1]) = top.path ++ [fold c.1] :=
          path_concat top hne rfl
        have hpathne : path (top ++ [c.1]) ≠ [] := by simp [hpath]
        have hval : C (path (top ++ [c.1])) = some c.2 := by
          rw [← hCs _ hpathne, hpath]
          exact (hlists.mem (fold c.1) c.2).mp ⟨c.1, rfl, hc⟩
        have hget : (gen t).get (top ++ [c.1]) = some c.2 := by
          rw [get_of_plain _ hplain, hC t ht _ hpathne, hval]
        obtain ⟨hI, hQ, hkeep⟩ := hbody t (top ++ [c.1]) c.2 ht hplain hpathne hval (by
          intro p hp hpre hself
          rw [hpath] at hpre hself
          exact hupt p hp ((prefix_concat_iff.mp hpre).resolve_left hself))
        obtain ⟨hI', hkeep', hbelow⟩ := ih hplain hI (by
          intro p hp hpre
          rw [hpath] at hpre
          rcases prefix_concat_iff.mp hpre with h | h
          · rw [h, ← hpath]
            exact hQ
          · exact hkeep p (hupt p hp h))
        obtain ⟨hI'', hkeep'', hrest⟩ := ihcs _ (fun c hc => hcs c (mem_cons_of_mem _ hc)) hI'
          fun p hp hpre => hkeep' p (hkeep p (hupt p hp hpre))
        simp only [foldl_cons, hkey, hget]
        refine ⟨hI'', fun p h => hkeep'' p (hkeep' p (hkeep p h)), ?_⟩
        intro b hb p hlen hCp
        rcases mem_cons.mp hb with rfl | hb
        · have happ : top.path ++ fold b.1 :: p = path (top ++ [b.1]) ++ p := by
            rw [hpath, append_assoc, singleton_append]
          rw [happ] at hCp ⊢
          apply hkeep''
          by_cases hp : p = []
          · rw [hp, append_nil]
            exact hkeep' _ hQ
          · exact hbelow p hp hlen hCp
        · exact hrest b hb p hlen hCp
    obtain ⟨hI, hkeep, hchildren⟩ := hloop _ s (fun _ h => h) hs hup
    refine ⟨hI, hkeep, ?_⟩
    intro p hp hlen hCp
    obtain ⟨t, p, rfl⟩ := exists_cons_of_ne_nil hp
    have hchild : (gen s).content (top.path ++ [t]) ≠ none := by
      intro hnone
      have hclosed := (gen s).content_closed _ p hnone
      rw [append_assoc, singleton_append, hCs _ (by simp)] at hclosed
      exact hCp hclosed
    obtain ⟨v, hv⟩ := Option.ne_none_iff_exists'.mp hchild
    obtain ⟨name, rfl, hc⟩ := (hlists.mem t v).mpr hv
    exact hchildren _ hc p (by simpa using hlen) hCp

end

end UniTempGen

end WvStreams
