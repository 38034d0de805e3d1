import WvStreams.ConfigFile.Lookup

/-!
# Inheritance

The loops over the sections and over the entries of `fuzzy_get` share one cache of the sections
that have been searched. After the first entry it has every section that a section inherits from,
and so the other entries are not looked for at all.
-/

namespace WvStreams.WvConf

open Lib List

/-- The loop over the entries, and the cache afterwards. -/
def fuzzy_entries (c : WvConf) (section_name : Str) (cache : List Str) :
    List Str → WvString × List Str
  | [] => (none, cache)
  | i2 :: entries =>
    match c.fuzzy_inherited i2 cache section_name with
    | (some ret, cache) => (some ret, cache)
    | (none, cache) => c.fuzzy_entries section_name cache entries

def fuzzy_lists (c : WvConf) (entries : List Str) (cache : List Str) : List Str → WvString
  | [] => none
  | i :: sections =>
    match c.fuzzy_entries i cache entries with
    | (some ret, _) => some ret
    | (none, cache) => c.fuzzy_lists entries cache sections

def fuzzy_get_lists (c : WvConf) (sections entries : List Str) (def_val : WvString := none) :
    WvString :=
  match c.fuzzy_lists entries [] sections with
  | some ret => some ret
  | none => def_val

/-- The entry has the value in the section, or in the first one that has it of those that the
section inherits from. -/
def Gives (c : WvConf) (p : Str × Str) (value : Str) : Prop :=
  ∃ n, (c.chain p.2).Found n p.1 value

def Present (c : WvConf) (p : Str × Str) : Prop := ∃ value, c.Gives p value

/-- The value of the first pair for which the entry is present, or the default. -/
inductive First (c : WvConf) (def_val : WvString) : List (Str × Str) → WvString → Prop
  | default : First c def_val [] def_val
  | found {p : Str × Str} {ps : List (Str × Str)} {value : Str} (hvalue : c.Gives p value) :
      First c def_val (p :: ps) (some value)
  | next {p : Str × Str} {ps : List (Str × Str)} {ret : WvString} (hp : ¬ c.Present p)
      (hret : First c def_val ps ret) : First c def_val (p :: ps) ret

/-- The sections outermost. -/
def pairs (sections entries : List Str) : List (Str × Str) :=
  sections.flatMap fun i => entries.map fun i2 => (i, i2)

/-- If the first pair is not of the first entry, it has the value that the first entry has. -/
def Steady (c : WvConf) (def_val : WvString) (sections entries : List Str) : Prop :=
  ∀ first ∈ entries.head?, ∀ l i entry r value, pairs sections entries = l ++ (i, entry) :: r →
    (∀ p ∈ l, ¬ c.Present p) → c.Gives (i, entry) value →
      entry = first ∨ First c def_val (pairs sections [first]) (some value)

variable {c : WvConf} {def_val : WvString} {ps : List (Str × Str)} {cache : List Str}

theorem Gives.unique {p : Str × Str} {v v' : Str} (h : c.Gives p v) (h' : c.Gives p v') :
    v = v' := by
  obtain ⟨_, h⟩ := h
  obtain ⟨_, h'⟩ := h'
  exact (h.unique h').2

theorem First.unique {ret ret' : WvString} (h : First c def_val ps ret)
    (h' : First c def_val ps ret') : ret = ret' := by
  induction h with
  | default =>
    cases h'
    rfl
  | found hvalue =>
    cases h' with
    | found hvalue' => rw [hvalue.unique hvalue']
    | next hp => exact absurd ⟨_, hvalue⟩ hp
  | next hp _ ih =>
    cases h' with
    | found hvalue' => exact absurd ⟨_, hvalue'⟩ hp
    | next _ hret' => exact ih hret'

theorem First.append_iff {ret : WvString} {l : List (Str × Str)} (hl : ∀ p ∈ l, ¬ c.Present p) :
    First c def_val (l ++ ps) ret ↔ First c def_val ps ret := by
  induction l with
  | nil => rfl
  | cons p l ih =>
    obtain ⟨hp, hl⟩ := forall_mem_cons.mp hl
    rw [cons_append, ← ih hl]
    constructor
    · rintro (_ | hvalue | ⟨_, hret⟩)
      · exact absurd ⟨_, hvalue⟩ hp
      · exact hret
    · exact .next hp

theorem first_cases (c : WvConf) (ps : List (Str × Str)) :
    (∃ l p r value, ps = l ++ p :: r ∧ (∀ q ∈ l, ¬ c.Present q) ∧ c.Gives p value) ∨
      ∀ p ∈ ps, ¬ c.Present p := by
  induction ps with
  | nil => exact .inr nofun
  | cons p ps ih =>
    by_cases hp : c.Present p
    · obtain ⟨value, hvalue⟩ := hp
      exact .inl ⟨[], p, ps, value, rfl, nofun, hvalue⟩
    · rcases ih with ⟨l, q, r, value, rfl, hl, hvalue⟩ | hnone
      · exact .inl ⟨p :: l, q, r, value, rfl, forall_mem_cons.mpr ⟨hp, hl⟩, hvalue⟩
      · exact .inr (forall_mem_cons.mpr ⟨hp, hnone⟩)

theorem get_inherited_iff (c : WvConf) (section_name entry value : Str) :
    c.get_inherited entry [] section_name = some value ↔ c.Gives (section_name, entry) value := by
  rw [get_inherited_eq_fuzzy]
  exact (search_fuzzy c entry [] section_name).some_iff LinkChain.fruitless_nil

theorem first_get (c : WvConf) (section_name entry : Str) (def_val : WvString) :
    First c (c.globalsection.get entry def_val) [(section_name, entry)]
      (c.get section_name entry def_val) := by
  rw [get]
  split
  · next ret hret => exact .found ((get_inherited_iff c section_name entry ret).mp hret)
  · next hnone =>
    refine .next ?_ .default
    rintro ⟨value, hvalue⟩
    cases hnone.symm.trans ((get_inherited_iff c section_name entry value).mpr hvalue)

theorem first_sections {c : WvConf} {entry : Str} {cache : List Str}
    (hcache : (c.chain entry).Fruitless cache) (sections : List Str) (def_val : WvString) :
    First c def_val (pairs sections [entry])
      ((c.fuzzy_sections entry cache sections).or def_val) := by
  induction sections generalizing cache with
  | nil => exact .default
  | cons i sections ih =>
    have hpairs : pairs (i :: sections) [entry] = (i, entry) :: pairs sections [entry] := rfl
    have hsearch := search_fuzzy c entry cache i
    rw [hpairs, fuzzy_sections]
    rcases hresult : c.fuzzy_inherited entry cache i with ⟨_ | ret, cache'⟩
    · rw [hresult] at hsearch
      refine .next ?_ (ih (hsearch.fruitless hcache))
      rintro ⟨value, n, hfound⟩
      exact (hsearch.none_iff hcache).mp rfl n value hfound
    · rw [hresult] at hsearch
      exact .found hsearch.found_of_some

theorem first_fuzzy_get (c : WvConf) (sections : List Str) (entry : Str) (def_val : WvString) :
    First c def_val (pairs sections [entry]) (c.fuzzy_get sections entry def_val) := by
  have hfirst := @first_sections c entry _ LinkChain.fruitless_nil sections def_val
  rw [fuzzy_get]
  cases hresult : c.fuzzy_sections entry [] sections with
  | none | some ret => rwa [hresult] at hfirst

def Stops (c : WvConf) (cache : List Str) (section_name : Str) : Prop :=
  ∀ s, c.section? section_name = some s → s.name ∈ cache

theorem Stops.fuzzy_inherited {section_name : Str} (h : c.Stops cache section_name) (entry : Str) :
    c.fuzzy_inherited entry cache section_name = (none, cache) := by
  rw [fuzzy_inherited_eq]
  cases hs : c.section? section_name with
  | none => rfl
  | some s => exact if_pos (contains_iff_mem.mpr (h s hs))

theorem stops_of_none {entry : Str} {cache' : List Str} {section_name : Str}
    (h : c.fuzzy_inherited entry cache section_name = (none, cache')) :
    c.Stops cache' section_name := by
  intro s hs
  rw [fuzzy_inherited_eq, hs] at h
  dsimp only at h
  split_ifs at h with hcache
  · obtain ⟨-, rfl⟩ := Prod.mk.inj h
    exact contains_iff_mem.mp hcache
  · cases hret : s.get entry with
    | some ret =>
      rw [hret] at h
      cases h
    | none =>
      rw [hret] at h
      cases hvalue : s.get (bytes "Inherits") with
      | none =>
        rw [hvalue] at h
        obtain ⟨-, rfl⟩ := Prod.mk.inj h
        exact mem_cons_self
      | some value =>
        have hsearch := search_fuzzy c entry (s.name :: cache) value
        rw [hvalue] at h
        dsimp only at h
        rw [h] at hsearch
        exact hsearch.subset mem_cons_self

theorem fuzzy_entries_cons (c : WvConf) (section_name : Str) (cache : List Str) (entry : Str)
    (entries : List Str) : c.fuzzy_entries section_name cache (entry :: entries) =
      c.fuzzy_inherited entry cache section_name := by
  have hrest : ∀ cache, c.Stops cache section_name → ∀ entries,
      c.fuzzy_entries section_name cache entries = (none, cache) := by
    intro cache hstops entries
    induction entries with
    | nil => rfl
    | cons i2 entries ih =>
      rw [fuzzy_entries, hstops.fuzzy_inherited]
      exact ih
  rw [fuzzy_entries]
  rcases hresult : c.fuzzy_inherited entry cache section_name with ⟨_ | ret, cache'⟩
  · exact hrest cache' (stops_of_none hresult) entries
  · rfl

theorem fuzzy_lists_cons (c : WvConf) (entry : Str) (entries cache sections : List Str) :
    c.fuzzy_lists (entry :: entries) cache sections = c.fuzzy_sections entry cache sections := by
  induction sections generalizing cache with
  | nil => rfl
  | cons i sections ih =>
    rw [fuzzy_lists, fuzzy_sections, fuzzy_entries_cons]
    rcases c.fuzzy_inherited entry cache i with ⟨_ | ret, cache'⟩
    · exact ih cache'
    · rfl

theorem fuzzy_get_lists_cons (c : WvConf) (sections : List Str) (entry : Str) (entries : List Str)
    (def_val : WvString) :
    c.fuzzy_get_lists sections (entry :: entries) def_val = c.fuzzy_get sections entry def_val := by
  rw [fuzzy_get_lists, fuzzy_lists_cons]
  rfl

theorem fuzzy_get_lists_nil (c : WvConf) (sections : List Str) (def_val : WvString) :
    c.fuzzy_get_lists sections [] def_val = def_val := by
  have hnone : ∀ cache, c.fuzzy_lists [] cache sections = none := by
    induction sections with
    | nil => exact fun _ => rfl
    | cons i sections ih => exact fun cache => ih cache
  rw [fuzzy_get_lists, hnone]

theorem mem_pairs {sections entries : List Str} {p : Str × Str} :
    p ∈ pairs sections entries ↔ p.1 ∈ sections ∧ p.2 ∈ entries := by
  obtain ⟨i, i2⟩ := p
  simp [pairs]

theorem first_of_none (hps : ∀ p ∈ ps, ¬ c.Present p) (def_val : WvString) :
    First c def_val ps def_val := by
  rw [← append_nil ps, First.append_iff hps]
  exact .default

theorem first_of_head {sections rest : List Str} {first i value : Str} {l r : List (Str × Str)}
    (hpairs : pairs sections (first :: rest) = l ++ (i, first) :: r) (hl : ∀ p ∈ l, ¬ c.Present p)
    (hvalue : c.Gives (i, first) value) :
    First c def_val (pairs sections [first]) (some value) := by
  induction sections generalizing l with
  | nil => simp [pairs] at hpairs
  | cons j sections ih =>
    have hcons : pairs (j :: sections) (first :: rest) =
        (j, first) :: (rest.map (fun i2 => (j, i2)) ++ pairs sections (first :: rest)) := rfl
    rw [hcons] at hpairs
    cases l with
    | nil =>
      obtain ⟨hj, -⟩ := cons.inj hpairs
      have hfound : c.Gives (j, first) value := hj ▸ hvalue
      exact .found hfound
    | cons p l =>
      obtain ⟨rfl, hrest⟩ := cons.inj hpairs
      obtain ⟨hj, hl⟩ := forall_mem_cons.mp hl
      refine .next hj ?_
      rcases append_eq_append_iff.mp hrest with ⟨m, rfl, hm⟩ | ⟨m, hm, hm'⟩
      · exact ih hm fun p hp => hl p (mem_append_right _ hp)
      · cases m with
        | nil => exact ih (l := []) hm'.symm nofun
        | cons q m =>
          -- the pair would be one of the section `j`
          obtain ⟨rfl, -⟩ := cons.inj hm'
          have hmem : (i, first) ∈ rest.map fun i2 => (j, i2) := by
            rw [hm]
            simp
          obtain ⟨_, -, hi⟩ := mem_map.mp hmem
          obtain ⟨rfl, -⟩ := Prod.mk.inj hi
          exact absurd ⟨value, hvalue⟩ hj

/-- `get` and `fuzzy_get` for one entry find the first value. `fuzzy_get` for a list finds it
unless it overlooks one that is not of the first entry. -/
theorem searches_iff (c : WvConf) (def_val : WvString) :
    (∀ section_name entry, First c (c.globalsection.get entry def_val) [(section_name, entry)]
      (c.get section_name entry def_val)) ∧
    (∀ sections entry, First c def_val (pairs sections [entry])
      (c.fuzzy_get sections entry def_val)) ∧
    ∀ sections entries, First c def_val (pairs sections entries)
      (c.fuzzy_get_lists sections entries def_val) ↔ c.Steady def_val sections entries := by
  refine ⟨fun section_name entry => first_get c section_name entry def_val,
    fun sections entry => first_fuzzy_get c sections entry def_val, fun sections entries => ?_⟩
  cases entries with
  | nil =>
    rw [fuzzy_get_lists_nil]
    have hnone : ∀ p ∈ pairs sections [], ¬ c.Present p :=
      fun p hp => absurd (mem_pairs.mp hp).2 not_mem_nil
    exact iff_of_true (first_of_none hnone def_val) nofun
  | cons first rest =>
    have hfirst := first_fuzzy_get c sections first def_val
    rw [fuzzy_get_lists_cons]
    constructor
    · rintro hret _ ⟨⟩ l i entry r value hpairs hl hvalue
      rw [hpairs, First.append_iff hl] at hret
      rw [hret.unique (.found hvalue)] at hfirst
      exact .inr hfirst
    · intro hsteady
      rcases first_cases c (pairs sections (first :: rest)) with
        ⟨l, ⟨i, entry⟩, r, value, hpairs, hl, hvalue⟩ | hnone
      · have hvalue' : First c def_val (pairs sections [first]) (some value) := by
          rcases hsteady first rfl l i entry r value hpairs hl hvalue with rfl | hvalue'
          · exact first_of_head hpairs hl hvalue
          · exact hvalue'
        rw [hfirst.unique hvalue', hpairs, First.append_iff hl]
        exact .found hvalue
      · have hnone' : ∀ p ∈ pairs sections [first], ¬ c.Present p := by
          intro p hp
          obtain ⟨hi, hentry⟩ := mem_pairs.mp hp
          exact hnone p (mem_pairs.mpr ⟨hi, mem_singleton.mp hentry ▸ mem_cons_self⟩)
        rw [hfirst.unique (first_of_none hnone' def_val)]
        exact first_of_none hnone def_val

/-- The only section has an entry that is not the first one. -/
theorem not_searches : ¬ ∀ (c : WvConf) (sections entries : List Str) (def_val : WvString),
    First c def_val (pairs sections entries) (c.fuzzy_get_lists sections entries def_val) := by
  intro h
  let c : WvConf := { sections := [⟨bytes "s", [⟨bytes "b", bytes "v"⟩]⟩] }
  have hlink : ∀ entry, (c.chain entry).link (bytes "s") = none := fun entry => by
    rw [chain_link]
    decide
  have hnone : (c.chain (bytes "a")).lookup (bytes "s") = none := by
    rw [chain_lookup]
    decide
  have ha : ¬ c.Present (bytes "s", bytes "a") := by
    rintro ⟨value, n, hfound⟩
    cases hfound with
    | here hvalue => cases hnone.symm.trans hvalue
    | there hnext => cases hnext.link_eq.symm.trans (hlink _)
  have hb : c.Gives (bytes "s", bytes "b") (bytes "v") := by
    refine ⟨0, .here ?_⟩
    rw [chain_lookup]
    decide
  have hlists := h c [bytes "s"] [bytes "a", bytes "b"] none
  have hone := first_fuzzy_get c [bytes "s"] (bytes "a") none
  rw [fuzzy_get_lists_cons, hone.unique (.next ha .default)] at hlists
  cases hlists.unique (.next ha (.found hb))

end WvStreams.WvConf
