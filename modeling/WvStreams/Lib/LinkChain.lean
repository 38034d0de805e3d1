import Mathlib.Logic.Relation

/-!
# Searches along a chain

A name stands for at most one node. A node may have a value, and one without may lead to another
name. A search along this chain gives up at a node that it has been at before, as it would go
round for ever, and still it finds the value that the chain comes to (`Search.some_iff`), also
where several names are searched one after the other (`SearchAll.some_iff`).
-/

namespace WvStreams.Lib

open Option List

structure LinkChain (ν κ β : Type) where
  node : ν → Option κ
  value : κ → Option β
  next : κ → Option ν

namespace LinkChain

variable {ν κ β : Type}

def lookup (c : LinkChain ν κ β) (x : ν) : Option β := (c.node x).bind c.value

def link (c : LinkChain ν κ β) (x : ν) : Option ν := (c.node x).bind c.next

/-- From a name without a value the chain goes on. -/
structure Follows (c : LinkChain ν κ β) (x y : ν) : Prop where
  lookup_eq : c.lookup x = none
  link_eq : c.link x = some y

def Leads (c : LinkChain ν κ β) : ν → ν → Prop := Relation.ReflTransGen c.Follows

/-- The chain comes to the value in so many steps. -/
inductive Found (c : LinkChain ν κ β) : Nat → ν → β → Prop
  | here {x : ν} {v : β} (h : c.lookup x = some v) : Found c 0 x v
  | there {n : Nat} {x y : ν} {v : β} (h : c.Follows x y) (hrest : Found c n y v) :
      Found c (n + 1) x v

variable {c d : LinkChain ν κ β}

variable {x : ν} {v : β} {cache cache' : List κ} {n : Nat} {r : Option β}

theorem lookup_eq {k : κ} (h : c.node x = some k) : c.lookup x = c.value k := by
  rw [lookup, h, bind_some]

theorem link_eq {k : κ} (h : c.node x = some k) : c.link x = c.next k := by
  rw [link, h, bind_some]

theorem Follows.unique {y z : ν} (h : c.Follows x y) (h' : c.Follows x z) : y = z :=
  some.inj (h.link_eq.symm.trans h'.link_eq)

theorem Found.unique {m : Nat} {w : β} (h : c.Found n x v) (h' : c.Found m x w) :
    n = m ∧ v = w := by
  induction h generalizing m with
  | here hv =>
    cases h' with
    | here hw => exact ⟨rfl, some.inj (hv.symm.trans hw)⟩
    | there hnext _ => exact absurd (hv.symm.trans hnext.lookup_eq) (some_ne_none _)
  | there hnext _ ih =>
    cases h' with
    | here hw => exact absurd (hw.symm.trans hnext.lookup_eq) (some_ne_none _)
    | there hnext' hrest' =>
      obtain rfl := hnext.unique hnext'
      obtain ⟨rfl, rfl⟩ := ih hrest'
      exact ⟨rfl, rfl⟩

theorem Found.of_node {y : ν} (hnode : c.node x = c.node y) (h : c.Found n x v) :
    c.Found n y v := by
  have hlookup : c.lookup x = c.lookup y := by rw [lookup, lookup, hnode]
  have hlink : c.link x = c.link y := by rw [link, link, hnode]
  cases h with
  | here hv => exact .here (hlookup ▸ hv)
  | there hnext hrest => exact .there ⟨hlookup ▸ hnext.lookup_eq, hlink ▸ hnext.link_eq⟩ hrest

theorem Found.exists_leads (h : c.Found n x v) : ∃ y, c.Leads x y ∧ c.lookup y = some v := by
  induction h with
  | here hv => exact ⟨_, .refl, hv⟩
  | there hnext _ ih =>
    obtain ⟨y, hleads, hv⟩ := ih
    exact ⟨y, .head hnext hleads, hv⟩

theorem Found.of_leads {y : ν} (h : c.Leads x y) (hy : c.Found n y v) : ∃ m, c.Found m x v := by
  induction h using Relation.ReflTransGen.head_induction_on with
  | refl => exact ⟨n, hy⟩
  | head hnext _ ih =>
    obtain ⟨m, hm⟩ := ih
    exact ⟨m + 1, .there hnext hm⟩

/-- A search from a name, with the nodes in a cache behind it: the value, if there is one, and the
cache afterwards. -/
inductive Search (c : LinkChain ν κ β) : List κ → ν → Option β → List κ → Prop
  | stop {cache : List κ} {x : ν} (hvalue : c.lookup x = none) (hnext : c.link x = none) :
      Search c cache x none cache
  | seen {cache : List κ} {x : ν} {k : κ} (hnode : c.node x = some k) (hk : k ∈ cache) :
      Search c cache x none cache
  | found {cache : List κ} {x : ν} {k : κ} {v : β} (hnode : c.node x = some k) (hk : k ∉ cache)
      (hvalue : c.value k = some v) : Search c cache x (some v) cache
  | last {cache : List κ} {x : ν} {k : κ} (hnode : c.node x = some k) (hk : k ∉ cache)
      (hvalue : c.value k = none) (hnext : c.next k = none) : Search c cache x none (k :: cache)
  | step {cache cache' : List κ} {x y : ν} {k : κ} {r : Option β} (hnode : c.node x = some k)
      (hk : k ∉ cache) (hvalue : c.value k = none) (hnext : c.next k = some y)
      (hrest : Search c (k :: cache) y r cache') : Search c cache x r cache'

/-- No value is to be found from the nodes of the cache. -/
def Fruitless (c : LinkChain ν κ β) (cache : List κ) : Prop :=
  ∀ k ∈ cache, ∀ x n v, c.node x = some k → ¬ c.Found n x v

theorem fruitless_nil : c.Fruitless [] := nofun

theorem Search.found_of_some (h : c.Search cache x (some v) cache') : ∃ n, c.Found n x v := by
  generalize hr : some v = r at h
  induction h with
  | stop | seen | last => cases hr
  | found hnode _ hvalue =>
    obtain rfl := some.inj hr
    exact ⟨0, .here ((lookup_eq hnode).trans hvalue)⟩
  | step hnode _ hvalue hnext _ ih =>
    obtain ⟨n, hn⟩ := ih hr
    exact ⟨n + 1, .there ⟨(lookup_eq hnode).trans hvalue, (link_eq hnode).trans hnext⟩ hn⟩

theorem Search.eq_some (h : c.Search cache x r cache') (hfound : c.Found n x v)
    (hbehind : ∀ k ∈ cache, ∀ y m w, c.node y = some k → c.Found m y w → n < m) : r = some v := by
  induction h generalizing n with
  | stop hvalue hnext =>
    cases hfound with
    | here hv => exact hvalue.symm.trans hv
    | there hfollows _ =>
      exact absurd (hnext.symm.trans hfollows.link_eq) (some_ne_none _).symm
  | seen hnode hk => exact absurd (hbehind _ hk _ n v hnode hfound) (Nat.lt_irrefl n)
  | found hnode _ hvalue =>
    exact congrArg some (Found.unique (.here ((lookup_eq hnode).trans hvalue)) hfound).2
  | last hnode _ hvalue hnext =>
    cases hfound with
    | here hv => exact hvalue.symm.trans ((lookup_eq hnode).symm.trans hv)
    | there hfollows _ =>
      have hlink := (link_eq hnode).symm.trans hfollows.link_eq
      exact absurd (hnext.symm.trans hlink) (some_ne_none _).symm
  | @step _ _ x y k _ hnode _ hvalue hnext _ ih =>
    have hfollows : c.Follows x y := ⟨(lookup_eq hnode).trans hvalue, (link_eq hnode).trans hnext⟩
    cases hfound with
    | here hv => exact absurd (hv.symm.trans hfollows.lookup_eq) (some_ne_none _)
    | @there n _ _ _ hfollows' hrest =>
      obtain rfl := hfollows.unique hfollows'
      apply ih hrest
      intro j hj z m w hz hm
      rcases mem_cons.mp hj with rfl | hj
      · -- the value is one step nearer than from here
        have hhere := Found.of_node (hz.trans hnode.symm) hm
        obtain ⟨rfl, -⟩ := hhere.unique (.there hfollows hrest)
        exact Nat.lt_succ_self n
      · exact Nat.lt_of_succ_lt (hbehind j hj z m w hz hm)

theorem Search.some_iff (h : c.Search cache x r cache') (hcache : c.Fruitless cache) :
    r = some v ↔ ∃ n, c.Found n x v := by
  constructor
  · rintro rfl
    exact h.found_of_some
  · rintro ⟨n, hn⟩
    exact h.eq_some hn fun k hk y m w hnode hm => absurd hm (hcache k hk y m w hnode)

theorem Search.none_iff (h : c.Search cache x r cache') (hcache : c.Fruitless cache) :
    r = none ↔ ∀ n v, ¬ c.Found n x v := by
  rw [eq_none_iff_forall_ne_some]
  constructor
  · intro hr n v hn
    exact hr v ((h.some_iff hcache).mpr ⟨n, hn⟩)
  · intro hno v hv
    obtain ⟨n, hn⟩ := (h.some_iff hcache).mp hv
    exact hno n v hn

theorem Search.mem_cache (h : c.Search cache x r cache') {k : κ} (hk : k ∈ cache') :
    k ∈ cache ∨ ∃ y, c.Leads x y ∧ c.node y = some k := by
  induction h with
  | stop | seen | found => exact Or.inl hk
  | @last _ x _ hnode =>
    rcases mem_cons.mp hk with rfl | hk
    · exact Or.inr ⟨x, .refl, hnode⟩
    · exact Or.inl hk
  | @step _ _ x y _ _ hnode _ hvalue hnext _ ih =>
    rcases ih hk with hk | ⟨z, hleads, hz⟩
    · rcases mem_cons.mp hk with rfl | hk
      · exact Or.inr ⟨x, .refl, hnode⟩
      · exact Or.inl hk
    · have hfollows : c.Follows x y := ⟨(lookup_eq hnode).trans hvalue, (link_eq hnode).trans hnext⟩
      exact Or.inr ⟨z, .head hfollows hleads, hz⟩

theorem Search.subset (h : c.Search cache x r cache') : cache ⊆ cache' := by
  induction h with
  | stop | seen | found => exact List.Subset.refl _
  | last => exact subset_cons_self _ _
  | step _ _ _ _ _ ih => exact List.Subset.trans (subset_cons_self _ _) ih

theorem Search.fruitless (h : c.Search cache x none cache') (hcache : c.Fruitless cache) :
    c.Fruitless cache' := by
  have hno := (h.none_iff hcache).mp rfl
  intro k hk y n v hnode hfound
  rcases h.mem_cache hk with hk | ⟨z, hleads, hz⟩
  · exact hcache k hk y n v hnode hfound
  · obtain ⟨m, hm⟩ := Found.of_leads hleads (hfound.of_node (hnode.trans hz.symm))
    exact hno m v hm

/-- The names are searched one after the other, and the cache is kept. -/
inductive SearchAll (c : LinkChain ν κ β) : List κ → List ν → Option β → Prop
  | nil {cache : List κ} : SearchAll c cache [] none
  | found {cache cache' : List κ} {x : ν} {xs : List ν} {v : β}
      (h : c.Search cache x (some v) cache') : SearchAll c cache (x :: xs) (some v)
  | next {cache cache' : List κ} {x : ν} {xs : List ν} {r : Option β}
      (h : c.Search cache x none cache') (hrest : SearchAll c cache' xs r) :
      SearchAll c cache (x :: xs) r

/-- The value that the first name comes to that comes to one. -/
inductive FoundFirst (c : LinkChain ν κ β) : List ν → β → Prop
  | head {n : Nat} {x : ν} {xs : List ν} {v : β} (h : c.Found n x v) : FoundFirst c (x :: xs) v
  | tail {x : ν} {xs : List ν} {v : β} (h : ∀ n w, ¬ c.Found n x w) (hrest : FoundFirst c xs v) :
      FoundFirst c (x :: xs) v

/-- The names that such a search comes to. -/
inductive Visits (c : LinkChain ν κ β) : List ν → ν → Prop
  | head {x y : ν} {xs : List ν} (h : c.Leads x y) : Visits c (x :: xs) y
  | tail {x y : ν} {xs : List ν} (h : ∀ n w, ¬ c.Found n x w) (hrest : Visits c xs y) :
      Visits c (x :: xs) y

theorem SearchAll.some_iff {xs : List ν} (h : c.SearchAll cache xs r) (hcache : c.Fruitless cache) :
    r = some v ↔ c.FoundFirst xs v := by
  induction h with
  | nil => exact ⟨nofun, nofun⟩
  | @found _ _ x _ w hsearch =>
    obtain ⟨n, hn⟩ := hsearch.found_of_some
    constructor
    · rintro ⟨⟩
      exact .head hn
    · rintro (h | ⟨h, -⟩)
      · exact congrArg some (hn.unique h).2
      · exact absurd hn (h n w)
  | next hsearch _ ih =>
    have hno := (hsearch.none_iff hcache).mp rfl
    rw [ih (hsearch.fruitless hcache)]
    constructor
    · exact .tail hno
    · rintro (h | ⟨-, hrest⟩)
      · exact absurd h (hno _ _)
      · exact hrest

/-- The name has the same value in both chains, and leads to the same name. -/
structure SameAt (c d : LinkChain ν κ β) (x : ν) : Prop where
  lookup_eq : c.lookup x = d.lookup x
  link_eq : c.link x = d.link x

theorem Found.congr (h : ∀ y, c.Leads x y → c.SameAt d y) : c.Found n x v ↔ d.Found n x v := by
  constructor
  · intro hfound
    induction hfound with
    | here hv => exact .here ((h _ .refl).lookup_eq ▸ hv)
    | there hnext _ ih =>
      have hsame := h _ .refl
      exact .there ⟨hsame.lookup_eq ▸ hnext.lookup_eq, hsame.link_eq ▸ hnext.link_eq⟩
        (ih fun y hy => h y (.head hnext hy))
  · intro hfound
    induction hfound with
    | here hv => exact .here ((h _ .refl).lookup_eq ▸ hv)
    | there hnext _ ih =>
      have hsame := h _ .refl
      have hnext' : c.Follows _ _ :=
        ⟨hsame.lookup_eq ▸ hnext.lookup_eq, hsame.link_eq ▸ hnext.link_eq⟩
      exact .there hnext' (ih fun y hy => h y (.head hnext' hy))

theorem FoundFirst.congr {xs : List ν} (h : ∀ y, c.Visits xs y → c.SameAt d y) :
    c.FoundFirst xs v ↔ d.FoundFirst xs v := by
  induction xs with
  | nil => exact ⟨nofun, nofun⟩
  | cons x xs ih =>
    have hfound : ∀ n w, c.Found n x w ↔ d.Found n x w :=
      fun n w => Found.congr fun y hy => h y (.head hy)
    constructor
    · rintro (hx | ⟨hx, hrest⟩)
      · exact .head ((hfound _ _).mp hx)
      · exact .tail (fun n w hw => hx n w ((hfound n w).mpr hw))
          ((ih fun y hy => h y (.tail hx hy)).mp hrest)
    · rintro (hx | ⟨hx, hrest⟩)
      · exact .head ((hfound _ _).mpr hx)
      · have hx' : ∀ n w, ¬ c.Found n x w := fun n w hw => hx n w ((hfound n w).mp hw)
        exact .tail hx' ((ih fun y hy => h y (.tail hx' hy)).mpr hrest)

end LinkChain

end WvStreams.Lib
