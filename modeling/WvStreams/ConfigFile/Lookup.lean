import WvStreams.Lib.LinkChain
import WvStreams.Lib.Keyed
import WvStreams.ConfigFile.ReadAlike
import WvStreams.ConfigFile.RoundTrip

/-!
# What is found in a `WvConf`

The value that a section has itself for an entry (`WvConf.lookup`), after each of the calls that
change it. What a section inherits is found along the chain of its `Inherits` entries, and both
`get` and `fuzzy_get` are searches along that chain.
-/

namespace WvStreams

open Lib Option List WvConfigSection

theorem strcaseeq_eq (s t : Str) :
    strcaseeq s t = decide (fold (s : Segment) = fold (t : Segment)) := by
  rw [Bool.eq_iff_iff, strcaseeq_iff, decide_eq_true_iff]

namespace WvConfigSection

def entryKey (e : WvConfigEntry) : Segment := fold (e.name : Segment)

theorem entry?_eq (s : WvConfigSection) (ename : Str) :
    s.entry? ename = keyed entryKey s.entries (fold (ename : Segment)) := by
  unfold entry? keyed
  congr 1
  funext e
  exact strcaseeq_eq e.name ename

theorem get_eq (s : WvConfigSection) (ename : Str) :
    s.get ename = (s.entry? ename).map WvConfigEntry.value := by
  rw [get]
  cases s.entry? ename <;> rfl

/-- What `set` makes of an empty section. -/
structure Tidy (s : WvConfigSection) : Prop where
  entries : ∀ e ∈ s.entries, trimEnd e.name = e.name ∧ e.value ≠ []
  distinct : DistinctKeys entryKey s.entries

theorem tidy_nil (name : Str) : Tidy ⟨name, []⟩ :=
  ⟨forall_mem_nil _, Pairwise.nil⟩

theorem set_cases (s : WvConfigSection) {entry : Str} (hentry : trimEnd entry = entry)
    (value : Str) :
    (value = [] ∧ (s.set entry value).entries =
        s.entries.eraseP fun e => decide (entryKey e = fold (entry : Segment))) ∨
      (value ≠ [] ∧ (s.entry? entry).isSome ∧ (s.set entry value).entries =
        s.entries.modify (s.entries.findIdx fun e => decide (entryKey e = fold (entry : Segment)))
          fun e => { e with value }) ∨ (value ≠ [] ∧ s.entry? entry = none ∧
        (s.set entry value).entries = s.entries ++ [⟨entry, value⟩]) := by
  have hfound : (fun e : WvConfigEntry => strcaseeq e.name entry) =
      fun e => decide (entryKey e = fold (entry : Segment)) :=
    funext fun e => strcaseeq_eq e.name entry
  unfold set
  simp only [hentry, hfound]
  by_cases hvalue : value = []
  · rw [if_pos hvalue]
    exact .inl ⟨hvalue, rfl⟩
  · rw [if_neg hvalue]
    by_cases hsome : (s.entry? entry).isSome
    · rw [if_pos hsome]
      exact .inr (.inl ⟨hvalue, hsome, rfl⟩)
    · rw [if_neg hsome, quick_set, hentry]
      exact .inr (.inr ⟨hvalue, not_isSome_iff_eq_none.mp hsome, rfl⟩)

theorem Tidy.set {s : WvConfigSection} (h : s.Tidy) {entry : Str}
    (hentry : trimEnd entry = entry) (value : Str) : (s.set entry value).Tidy := by
  rcases set_cases s hentry value with ⟨-, hset⟩ | ⟨hvalue, -, hset⟩ | ⟨hvalue, hnone, hset⟩
  · refine ⟨?_, ?_⟩ <;> rw [hset]
    · exact fun e he => h.entries e (mem_of_mem_eraseP he)
    · exact h.distinct.eraseP _
  · refine ⟨?_, ?_⟩ <;> rw [hset]
    · exact forall_mem_modify (f := fun e => { e with value }) h.entries
        (fun e he => ⟨he.1, hvalue⟩) _
    · exact h.distinct.modify (f := fun e => { e with value }) (fun _ => rfl) _
  · refine ⟨?_, ?_⟩ <;> rw [hset]
    · rw [forall_mem_append, forall_mem_singleton]
      exact ⟨h.entries, hentry, hvalue⟩
    · rw [entry?_eq] at hnone
      exact h.distinct.append hnone

theorem Tidy.get_set {s : WvConfigSection} (h : s.Tidy) {entry : Str}
    (hentry : trimEnd entry = entry) (value other : Str) : (s.set entry value).get other =
      if fold (other : Segment) = fold (entry : Segment) then
        (if value = [] then none else some value)
      else s.get other := by
  rw [get_eq, get_eq, entry?_eq, entry?_eq]
  rcases set_cases s hentry value with ⟨hvalue, hset⟩ | ⟨hvalue, hsome, hset⟩ | ⟨hvalue, hnone, hset⟩
  · rw [hset, keyed_eraseP h.distinct, if_pos hvalue]
    split <;> rfl
  · obtain ⟨e, he⟩ := isSome_iff_exists.mp hsome
    rw [entry?_eq] at he
    have hkeyed := keyed_modify entryKey (f := fun e => { e with value }) (fun _ => rfl) s.entries
      (fold (entry : Segment)) (fold (other : Segment))
    rw [hset, hkeyed, he, if_neg hvalue]
    split <;> rfl
  · rw [entry?_eq] at hnone
    have hkeyed : keyed entryKey (s.entries ++ [⟨entry, value⟩]) (fold (other : Segment)) =
        if fold (other : Segment) = fold (entry : Segment) then some ⟨entry, value⟩
        else keyed entryKey s.entries (fold (other : Segment)) := keyed_append entryKey hnone _
    rw [hset, hkeyed, if_neg hvalue]
    split <;> rfl

end WvConfigSection

namespace WvConf

def sectionKey (s : WvConfigSection) : Segment := fold (s.name : Segment)

theorem section?_eq (c : WvConf) (section_name : Str) :
    c.section? section_name = keyed sectionKey c.sections (fold (section_name : Segment)) := by
  unfold section? keyed
  congr 1
  funext s
  exact strcaseeq_eq s.name section_name

def lookup (c : WvConf) (section_name entry : Str) : WvString :=
  (c.section? section_name).bind fun s => s.get entry

/-- What calls with single names make of an empty `WvConf`. -/
structure Tidy (c : WvConf) : Prop where
  globalsection : c.globalsection.entries = []
  names : ∀ s ∈ c.sections, UniConfKey.Single s.name
  sections : ∀ s ∈ c.sections, s.Tidy
  distinct : DistinctKeys sectionKey c.sections

theorem tidy_start : Tidy {} :=
  ⟨rfl, forall_mem_nil _, forall_mem_nil _, Pairwise.nil⟩

variable {c : WvConf} {section_name entry other : Str} {s : WvConfigSection}

theorem Tidy.of_section? (h : c.Tidy) (hs : c.section? section_name = some s) :
    s.Tidy ∧ fold (s.name : Segment) = fold (section_name : Segment) := by
  rw [section?_eq] at hs
  have hname : sectionKey s = fold (section_name : Segment) := key_of_keyed hs
  exact ⟨h.sections s (mem_of_keyed hs), hname⟩

theorem lookup_append (hnone : c.section? s.name = none) (d : Bool) (section_name entry : Str) :
    ({ c with sections := c.sections ++ [s], dirty := d } : WvConf).lookup section_name entry =
      if fold (section_name : Segment) = fold (s.name : Segment) then s.get entry
      else c.lookup section_name entry := by
  rw [section?_eq] at hnone
  have hkeyed : keyed sectionKey (c.sections ++ [s]) (fold (section_name : Segment)) =
      if fold (section_name : Segment) = fold (s.name : Segment) then some s
      else keyed sectionKey c.sections (fold (section_name : Segment)) :=
    keyed_append sectionKey hnone _
  rw [lookup, lookup, section?_eq, section?_eq]
  rw [hkeyed]
  split <;> rfl

theorem lookup_modify (hs : c.section? section_name = some s)
    {f : WvConfigSection → WvConfigSection} (hf : ∀ s, (f s).name = s.name) (d : Bool)
    (other entry : Str) :
    ({ c with
        sections := c.sections.modify (c.sections.findIdx fun s => strcaseeq s.name section_name) f
        dirty := d } : WvConf).lookup other entry =
      if fold (other : Segment) = fold (section_name : Segment) then (f s).get entry
      else c.lookup other entry := by
  have hfound : (fun s : WvConfigSection => strcaseeq s.name section_name) =
      fun s => decide (sectionKey s = fold (section_name : Segment)) :=
    funext fun s => strcaseeq_eq s.name section_name
  have hkeyed := keyed_modify sectionKey (fun s => congrArg fold (hf s)) c.sections
    (fold (section_name : Segment)) (fold (other : Segment))
  rw [section?_eq] at hs
  rw [lookup, lookup, section?_eq, section?_eq]
  rw [hfound, hkeyed, hs]
  split <;> rfl

theorem lookup_self (hs : c.section? section_name = some s)
    (hname : fold (other : Segment) = fold (section_name : Segment)) (entry : Str) :
    c.lookup other entry = s.get entry := by
  rw [section?_eq] at hs
  rw [lookup, section?_eq, hname, hs, bind_some]

theorem lookup_none (hnone : c.section? section_name = none)
    (hname : fold (other : Segment) = fold (section_name : Segment)) (entry : Str) :
    c.lookup other entry = none := by
  rw [section?_eq] at hnone
  rw [lookup, section?_eq, hname, hnone, bind_none]

theorem lookup_eq_none
    (h : ∀ s ∈ c.sections, fold (s.name : Segment) ≠ fold (section_name : Segment)) (entry : Str) :
    c.lookup section_name entry = none := by
  have hnone := keyed_eq_none.mpr h
  exact lookup_none ((section?_eq c section_name).trans hnone) rfl entry

open WvConfigSection

theorem get_same (s : WvConfigSection) (hentry : fold (other : Segment) = fold (entry : Segment)) :
    s.get other = s.get entry := by
  rw [get_eq, get_eq, entry?_eq, entry?_eq, hentry]

theorem set_cases (c : WvConf) (section_name entry : Str) (value : WvString) :
    (c.lookup section_name entry).getD [] = value.getD [] ∧ c.set section_name entry value = c ∨
      value.getD [] ≠ [] ∧ c.section? section_name = none ∧ c.set section_name entry value =
          { c with
            sections := c.sections ++ [WvConfigSection.set ⟨section_name, []⟩ entry (value.getD [])]
            dirty := true } ∨
      ∃ s, c.section? section_name = some s ∧ (s.get entry).getD [] ≠ value.getD [] ∧
        c.set section_name entry value =
          { c with
            sections := c.sections.modify
              (c.sections.findIdx fun s => strcaseeq s.name section_name)
              fun s => s.set entry (value.getD [])
            dirty := true } := by
  unfold set
  cases hs : c.section? section_name with
  | none =>
    by_cases hvalue : value.getD [] = []
    · have hnone := lookup_none hs rfl entry
      dsimp only
      rw [if_pos hvalue]
      exact .inl ⟨by rw [hnone, hvalue]; rfl, rfl⟩
    · dsimp only
      rw [if_neg hvalue]
      exact .inr (.inl ⟨hvalue, rfl, rfl⟩)
  | some s =>
    have hdefault : (s.get entry (some [])).getD [] = (s.get entry).getD [] := by
      rw [WvConfigSection.get, WvConfigSection.get]
      cases s.entry? entry <;> rfl
    dsimp only
    rw [hdefault]
    by_cases hchange : (s.get entry).getD [] ≠ value.getD []
    · rw [if_pos hchange]
      exact .inr (.inr ⟨s, rfl, hchange, rfl⟩)
    · rw [if_neg hchange]
      exact .inl ⟨by rw [lookup_self hs rfl]; exact not_not.mp hchange, rfl⟩

theorem isspace_tolower (c : Byte) : isspace (tolower c) = isspace c := by
  have hall : ∀ n < 256, isspace (tolower (UInt8.ofNat n)) = isspace (UInt8.ofNat n) := by
    decide +kernel
  have hc := hall c.toNat (UInt8.toNat_lt c)
  rwa [UInt8.ofNat_toNat] at hc

theorem trimEnd_of_fold {s t : Str} (h : fold (s : Segment) = fold (t : Segment))
    (hs : trimEnd s = s) : trimEnd t = t := by
  have hmap : s.map tolower = t.map tolower := h
  rw [trimEnd, rdropWhile_eq_self_iff] at hs ⊢
  intro ht
  have hs' : s ≠ [] := by
    rintro rfl
    exact ht (map_eq_nil_iff.mp hmap.symm)
  have hlast : (s.map tolower).getLast? = (t.map tolower).getLast? := congrArg _ hmap
  rw [getLast?_map, getLast?_map, getLast?_eq_getLast_of_ne_nil hs',
    getLast?_eq_getLast_of_ne_nil ht] at hlast
  rw [← isspace_tolower, ← some.inj hlast, isspace_tolower]
  exact hs hs'

theorem Tidy.of_get (h : s.Tidy) {value : Str} (hget : s.get entry = some value) :
    trimEnd entry = entry ∧ value ≠ [] := by
  rw [get_eq, entry?_eq] at hget
  obtain ⟨e, he, rfl⟩ := map_eq_some_iff.mp hget
  have hname : entryKey e = fold (entry : Segment) := key_of_keyed he
  obtain ⟨htrimmed, hvalue⟩ := h.entries e (mem_of_keyed he)
  exact ⟨trimEnd_of_fold hname htrimmed, hvalue⟩

theorem Tidy.of_lookup (h : c.Tidy) {value : Str}
    (hlookup : c.lookup section_name entry = some value) : trimEnd entry = entry ∧ value ≠ [] := by
  obtain ⟨s, hs, hget⟩ := bind_eq_some_iff.mp hlookup
  exact Tidy.of_get (h.of_section? hs).1 hget

theorem lookup_congr (c : WvConf) {other_entry : Str}
    (hname : fold (other : Segment) = fold (section_name : Segment))
    (hentry : fold (other_entry : Segment) = fold (entry : Segment)) :
    c.lookup other other_entry = c.lookup section_name entry := by
  cases hs : c.section? section_name with
  | none => rw [lookup_none hs hname, lookup_none hs rfl]
  | some s => rw [lookup_self hs hname, lookup_self hs rfl, get_same s hentry]

theorem trimmed_of_change (h : s.Tidy) {value : Str} (hchange : (s.get entry).getD [] ≠ value)
    (hentry : value = [] ∨ trimEnd entry = entry) : trimEnd entry = entry := by
  rcases hentry with rfl | hentry
  · cases hget : s.get entry with
    | none =>
      rw [hget] at hchange
      exact absurd rfl hchange
    | some old => exact (Tidy.of_get h hget).1
  · exact hentry

theorem Tidy.set (h : c.Tidy) {value : WvString} (hsection : UniConfKey.Single section_name)
    (hentry : value.getD [] = [] ∨ trimEnd entry = entry) : (c.set section_name entry value).Tidy := by
  rcases set_cases c section_name entry value with
    ⟨-, hset⟩ | ⟨hvalue, hnone, hset⟩ | ⟨s, hs, hchange, hset⟩
  · rw [hset]
    exact h
  · have htrimmed := hentry.resolve_left hvalue
    have hname := section_set_name ⟨section_name, []⟩ entry (value.getD [])
    rw [hset]
    refine ⟨h.globalsection, ?_, ?_, ?_⟩
    · rw [forall_mem_append, forall_mem_singleton, hname]
      exact ⟨h.names, hsection⟩
    · rw [forall_mem_append, forall_mem_singleton]
      exact ⟨h.sections, (tidy_nil _).set htrimmed _⟩
    · rw [section?_eq] at hnone
      apply h.distinct.append
      rw [sectionKey, hname]
      exact hnone
  · have htrimmed := trimmed_of_change (h.of_section? hs).1 hchange hentry
    have hkey : ∀ s, sectionKey (s.set entry (value.getD [])) = sectionKey s := fun s => by
      rw [sectionKey, sectionKey, section_set_name]
    rw [hset]
    exact ⟨h.globalsection,
      forall_mem_modify h.names (fun s hs => by rw [section_set_name]; exact hs) _,
      forall_mem_modify h.sections (fun s hs => hs.set htrimmed _) _, h.distinct.modify hkey _⟩

theorem Tidy.lookup_set (h : c.Tidy) {value : WvString}
    (hentry : value.getD [] = [] ∨ trimEnd entry = entry) (other other_entry : Str) :
    (c.set section_name entry value).lookup other other_entry =
      if fold (other : Segment) = fold (section_name : Segment) ∧
          fold (other_entry : Segment) = fold (entry : Segment) then
        (if value.getD [] = [] then none else some (value.getD []))
      else c.lookup other other_entry := by
  rcases set_cases c section_name entry value with
    ⟨hsame, hset⟩ | ⟨hvalue, hnone, hset⟩ | ⟨s, hs, hchange, hset⟩
  · rw [hset]
    split_ifs with hnames hvalue
    · rw [lookup_congr c hnames.1 hnames.2]
      cases hold : c.lookup section_name entry with
      | none => rfl
      | some old =>
        rw [hold, hvalue] at hsame
        exact absurd hsame (h.of_lookup hold).2
    · rw [lookup_congr c hnames.1 hnames.2]
      cases hold : c.lookup section_name entry with
      | none =>
        rw [hold] at hsame
        exact absurd hsame.symm hvalue
      | some old =>
        rw [hold] at hsame
        exact congrArg some hsame
    · rfl
  · rw [hset, lookup_append (by rw [section_set_name]; exact hnone), section_set_name,
      (tidy_nil _).get_set (hentry.resolve_left hvalue)]
    by_cases hname : fold (other : Segment) = fold (section_name : Segment)
    · rw [if_pos hname, lookup_none hnone hname]
      simp only [hname, true_and]
      rfl
    · rw [if_neg hname, if_neg fun hboth => hname hboth.1]
  · have hsection := (h.of_section? hs).1
    rw [hset, lookup_modify hs (fun s => section_set_name s entry _),
      hsection.get_set (trimmed_of_change hsection hchange hentry)]
    by_cases hname : fold (other : Segment) = fold (section_name : Segment)
    · rw [if_pos hname, lookup_self hs hname]
      simp only [hname, true_and]
    · rw [if_neg hname, if_neg fun hboth => hname hboth.1]

theorem delete_cases (c : WvConf) (section_name : Str) :
    c.section? section_name = none ∧ c.delete_section section_name = c ∨
      c.delete_section section_name = { c with
        sections := c.sections.eraseP fun s => decide (sectionKey s = fold (section_name : Segment))
        dirty := true } := by
  have hfound : (fun s : WvConfigSection => strcaseeq s.name section_name) =
      fun s => decide (sectionKey s = fold (section_name : Segment)) :=
    funext fun s => strcaseeq_eq s.name section_name
  unfold delete_section
  cases hs : c.section? section_name with
  | none => exact .inl ⟨rfl, rfl⟩
  | some s => exact .inr (by rw [hfound])

theorem Tidy.delete_section (h : c.Tidy) (section_name : Str) :
    (c.delete_section section_name).Tidy := by
  rcases delete_cases c section_name with ⟨-, hdelete⟩ | hdelete
  · rw [hdelete]
    exact h
  · rw [hdelete]
    exact ⟨h.globalsection, fun s hs => h.names s (mem_of_mem_eraseP hs),
      fun s hs => h.sections s (mem_of_mem_eraseP hs), h.distinct.eraseP _⟩

theorem Tidy.lookup_delete (h : c.Tidy) (section_name other entry : Str) :
    (c.delete_section section_name).lookup other entry =
      if fold (other : Segment) = fold (section_name : Segment) then none
      else c.lookup other entry := by
  rcases delete_cases c section_name with ⟨hnone, hdelete⟩ | hdelete
  · rw [hdelete]
    split
    · rename_i hname
      exact lookup_none hnone hname entry
    · rfl
  · rw [hdelete, lookup, lookup, section?_eq, section?_eq]
    rw [keyed_eraseP h.distinct]
    split <;> rfl

/-- The chain along which an entry is looked for. A section is known by its name. -/
def chain (c : WvConf) (entry : Str) : LinkChain Str Str Str where
  node section_name := (c.section? section_name).map WvConfigSection.name
  value name := c.lookup name entry
  next name := c.lookup name (bytes "Inherits")

theorem section?_name (hs : c.section? section_name = some s) : c.section? s.name = some s := by
  have hname : sectionKey s = fold (section_name : Segment) := by
    rw [section?_eq] at hs
    exact key_of_keyed hs
  rw [section?_eq] at hs ⊢
  exact (congrArg (keyed sectionKey c.sections) hname).trans hs

theorem lookup_name (hs : c.section? section_name = some s) (entry : Str) :
    c.lookup s.name entry = s.get entry :=
  lookup_self (section?_name hs) rfl entry

theorem lookup_node (c : WvConf) (entry section_name : Str) :
    ((c.section? section_name).map name).bind (fun name => c.lookup name entry) =
      c.lookup section_name entry := by
  cases hs : c.section? section_name with
  | none => rw [lookup_none hs rfl, map_none, bind_none]
  | some s => rw [map_some, bind_some, lookup_name hs, lookup_self hs rfl]

theorem chain_lookup (c : WvConf) (entry section_name : Str) :
    (c.chain entry).lookup section_name = c.lookup section_name entry :=
  lookup_node c entry section_name

theorem chain_link (c : WvConf) (entry section_name : Str) :
    (c.chain entry).link section_name = c.lookup section_name (bytes "Inherits") :=
  lookup_node c (bytes "Inherits") section_name

theorem chain_node (hs : c.section? section_name = some s) (entry : Str) :
    (c.chain entry).node section_name = some s.name := by
  show (c.section? section_name).map name = some s.name
  rw [hs, map_some]

theorem fuzzy_inherited_eq (c : WvConf) (entry : Str) (cache : List Str) (section_name : Str) :
    c.fuzzy_inherited entry cache section_name =
      match c.section? section_name with
      | none => (none, cache)
      | some s =>
        if cache.contains s.name then (none, cache)
        else
          match s.get entry with
          | some ret => (some ret, cache)
          | none =>
            match s.get (bytes "Inherits") with
            | some value => c.fuzzy_inherited entry (s.name :: cache) value
            | none => (none, s.name :: cache) := by
  rw [fuzzy_inherited]
  split
  · next hnone => rw [hnone]
  · next s hs =>
    rw [hs]
    dsimp only
    split_ifs with hcache
    · rfl
    · cases s.get entry with
      | some ret => rfl
      | none =>
        rw [get_eq]
        cases s.entry? (bytes "Inherits") <;> rfl

theorem search_fuzzy (c : WvConf) (entry : Str) (cache : List Str) (section_name : Str) :
    (c.chain entry).Search cache section_name (c.fuzzy_inherited entry cache section_name).1
      (c.fuzzy_inherited entry cache section_name).2 := by
  induction cache, section_name using fuzzy_inherited.induct c entry with
  | case1 cache section_name hnone =>
    rw [fuzzy_inherited_eq, hnone]
    exact .stop ((chain_lookup c _ _).trans (lookup_none hnone rfl _))
      ((chain_link c _ _).trans (lookup_none hnone rfl _))
  | case2 cache section_name s hs hcache =>
    rw [fuzzy_inherited_eq, hs]
    dsimp only
    rw [if_pos hcache]
    exact .seen (chain_node hs entry) (by simpa using hcache)
  | case3 cache section_name s hs hcache ret hret =>
    rw [fuzzy_inherited_eq, hs]
    dsimp only
    rw [if_neg hcache, hret]
    exact .found (chain_node hs entry) (by simpa using hcache) ((lookup_name hs entry).trans hret)
  | case4 cache section_name s hs hcache hnone inherits hinherits ih =>
    have hnext : s.get (bytes "Inherits") = some inherits.value := by
      rw [get_eq, hinherits, map_some]
    rw [fuzzy_inherited_eq, hs]
    dsimp only
    rw [if_neg hcache, hnone, hnext]
    exact .step (chain_node hs entry) (by simpa using hcache) ((lookup_name hs entry).trans hnone)
      ((lookup_name hs _).trans hnext) ih
  | case5 cache section_name s hs hcache hnone hinherits =>
    have hnext : s.get (bytes "Inherits") = none := by
      rw [get_eq, hinherits, map_none]
    rw [fuzzy_inherited_eq, hs]
    dsimp only
    rw [if_neg hcache, hnone, hnext]
    exact .last (chain_node hs entry) (by simpa using hcache) ((lookup_name hs entry).trans hnone)
      ((lookup_name hs _).trans hnext)

theorem get_inherited_eq_fuzzy (c : WvConf) (entry : Str) (cache : List Str) (section_name : Str) :
    c.get_inherited entry cache section_name = (c.fuzzy_inherited entry cache section_name).1 := by
  induction cache, section_name using get_inherited.induct c entry with
  | case1 cache section_name hnone =>
    rw [get_inherited_eq, fuzzy_inherited_eq, hnone]
    rfl
  | case2 cache section_name s hs hcache =>
    rw [get_inherited_eq, fuzzy_inherited_eq, hs, bind_some, if_pos hcache]
    dsimp only
    rw [if_pos hcache]
  | case3 cache section_name s hs hcache ret hret =>
    rw [get_inherited_eq, fuzzy_inherited_eq, hs, bind_some, if_neg hcache]
    dsimp only
    rw [if_neg hcache, hret]
    rfl
  | case4 cache section_name s hs hcache hnone inherits hinherits ih =>
    have hnext : s.get (bytes "Inherits") = some inherits.value := by
      rw [get_eq, hinherits, map_some]
    rw [get_inherited_eq, fuzzy_inherited_eq, hs, bind_some, if_neg hcache]
    dsimp only
    rw [if_neg hcache, hnone, hinherits, hnext]
    exact ih
  | case5 cache section_name s hs hcache hnone hinherits =>
    have hnext : s.get (bytes "Inherits") = none := by
      rw [get_eq, hinherits, map_none]
    rw [get_inherited_eq, fuzzy_inherited_eq, hs, bind_some, if_neg hcache]
    dsimp only
    rw [if_neg hcache, hnone, hinherits, hnext]
    rfl

theorem searchAll_fuzzy (c : WvConf) (entry : Str) (cache sections : List Str) :
    (c.chain entry).SearchAll cache sections (c.fuzzy_sections entry cache sections) := by
  induction sections generalizing cache with
  | nil => exact .nil
  | cons i sections ih =>
    have hsearch := search_fuzzy c entry cache i
    rw [fuzzy_sections]
    rcases hresult : c.fuzzy_inherited entry cache i with ⟨_ | ret, cache'⟩
    · rw [hresult] at hsearch
      exact .next hsearch (ih cache')
    · rw [hresult] at hsearch
      exact .found hsearch

/-- The section has the entry itself, or no section that it inherits from has it. -/
def Own (c : WvConf) (section_name entry : Str) : Prop :=
  c.lookup section_name entry ≠ none ∨
    ∀ name, (c.chain entry).Leads section_name name → c.lookup name entry = none

theorem own_iff (c : WvConf) (section_name entry : Str) :
    c.Own section_name entry ↔
      c.get_inherited entry [] section_name = c.lookup section_name entry := by
  have hsearch := search_fuzzy c entry [] section_name
  rw [get_inherited_eq_fuzzy]
  constructor
  · rintro (hown | hnone)
    · obtain ⟨value, hvalue⟩ := ne_none_iff_exists'.mp hown
      rw [hvalue, hsearch.some_iff LinkChain.fruitless_nil]
      exact ⟨0, .here ((chain_lookup c _ _).trans hvalue)⟩
    · rw [hnone section_name .refl, hsearch.none_iff LinkChain.fruitless_nil]
      intro n value hfound
      obtain ⟨name, hleads, hvalue⟩ := hfound.exists_leads
      rw [chain_lookup, hnone name hleads] at hvalue
      cases hvalue
  · intro hsame
    rw [Own, or_iff_not_imp_left, not_not]
    intro hnone name hleads
    rw [hnone, hsearch.none_iff LinkChain.fruitless_nil] at hsame
    rw [eq_none_iff_forall_ne_some]
    intro value hvalue
    obtain ⟨n, hn⟩ := LinkChain.Found.of_leads hleads (.here ((chain_lookup c _ _).trans hvalue))
    exact hsame n value hn

instance (c : WvConf) (section_name entry : Str) : Decidable (c.Own section_name entry) :=
  decidable_of_iff _ (own_iff c section_name entry).symm

theorem Tidy.get_own (h : c.Tidy) (hown : c.Own section_name entry) (def_val : WvString) :
    c.get section_name entry def_val = (c.lookup section_name entry).or def_val := by
  have hglobal : c.globalsection.get entry def_val = def_val := by
    rw [WvConfigSection.get, entry?, h.globalsection]
    rfl
  rw [get, (own_iff c section_name entry).mp hown, hglobal]
  cases c.lookup section_name entry <;> rfl

end WvConf

end WvStreams
