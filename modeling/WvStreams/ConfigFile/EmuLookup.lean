import WvStreams.Lib.LinkChain
import WvStreams.ConfigFile.WvConfEmu

/-!
# What is found in a `WvConfEmu`

The value that the tree has at the key of an entry, after each of the calls that change it, and
the search of `fuzzy_get` along the chain of the `Inherits` keys. The objects that are kept for the
sections make no difference to what is found.
-/

namespace WvStreams

open Lib UniConfKey UniTempGen

namespace WvConfEmu

theorem content_set_key (uniconf : UniTempGen) {section_name entry : Str}
    (hsection : Single section_name) (hentry : Single entry)
    (value : WvString) (s e : Segment) : (uniconf.set (key section_name entry) value).1.content [s, e] =
      if s = fold (section_name : Segment) ∧ e = fold (entry : Segment) then value
      else uniconf.content [s, e] := by
  have hplain : Plain [section_name, entry] := plain_cons.mpr
    ⟨hsection.ne, plain_cons.mpr ⟨hentry.ne, plain_nil⟩⟩
  have hlen : [s, e].length = ([section_name, entry].map (fun s : Segment => fold s)).length := rfl
  rw [content_set, key_eq hsection.spells hentry, refSet, hplain.not_slash,
    hplain.path_eq, Bool.false_and, if_neg Bool.false_ne_true, PathMap.assign_of_length _ _ hlen]
  simp only [List.map_cons, List.map_nil, List.cons.injEq, and_true]

theorem content_remove (uniconf : UniTempGen) {section_name : Str}
    (hsection : Single section_name) (s e : Segment) :
    (uniconf.set (handle [] section_name) none).1.content [s, e] =
      if s = fold (section_name : Segment) then none else uniconf.content [s, e] := by
  have hplain : Plain [section_name] :=
    plain_cons.mpr ⟨hsection.ne, plain_nil⟩
  have hkey : handle [] section_name = [section_name] :=
    hsection.spells.handle_eq plain_nil
  rw [content_set, hkey, refSet, Option.isSome_none, Bool.and_false,
    if_neg Bool.false_ne_true, PathMap.assign_none, hplain.path_eq]
  apply if_congr _ rfl rfl
  simp [eq_comm]

/-- The chain along which an entry is looked for in the tree. -/
def chain (uniconf : UniTempGen) (entry : Str) : LinkChain Str Str Str where
  node sect := if (UniConfKey.ofString sect).numsegments = 1 then some sect else none
  value name := if entry = [] then none else uniconf.get (key name entry)
  next name := uniconf.get (key name (bytes "Inherits"))

theorem chain_node {sect : Str} (hone : (ofString sect).numsegments = 1)
    (uniconf : UniTempGen) (entry : Str) : (chain uniconf entry).node sect = some sect :=
  if_pos hone

theorem get_eq (s : WvConfigSectionEmu) (uniconf : UniTempGen) (entry : Str) :
    s.get uniconf entry = (chain uniconf entry).value s.name := by
  show _ = if entry = [] then none else uniconf.get (handle s.fullkey entry)
  rw [WvConfigSectionEmu.get]
  split
  · rfl
  · rw [getme]
    cases uniconf.get (handle s.fullkey entry) <;> rfl

theorem fuzzy_inherited_eq (c : WvConfEmu) (entry : Str) (cache : List Str) (sect : Str) :
    c.fuzzy_inherited entry cache sect =
      match c.section? sect with
      | (none, c') => (none, cache, c')
      | (some s, c') =>
        if cache.contains s.name then (none, cache, c')
        else
          match s.get c'.uniconf entry with
          | some ret => (some ret, cache, c')
          | none =>
            match s.entry? c'.uniconf (bytes "Inherits") with
            | (some inherits, s') =>
              (c'.keep s').fuzzy_inherited entry (s.name :: cache) inherits.value
            | (none, s') => (none, s.name :: cache, c'.keep s') := by
  rw [fuzzy_inherited]
  split
  · next hs => rw [hs]
  · next s c' hs =>
    rw [hs]
    dsimp only
    split_ifs with hcache
    · rfl
    · cases s.get c'.uniconf entry with
      | some ret => rfl
      | none =>
        dsimp only
        split
        · next he => rw [he]
        · next he => rw [he]

theorem get_below {uniconf : UniTempGen} {sect : Str} {t : Segment} (ht : Spells sect t)
    (hnone : uniconf.get (handle [] sect) = none) (entry : Str) :
    uniconf.get (key sect entry) = none := by
  have hplain : Plain [t] :=
    plain_cons.mpr ⟨ht.single.ne, plain_nil⟩
  have hhandle : handle [] sect = [t] := ht.handle_eq plain_nil
  rw [hhandle, UniTempGen.get_of_plain _ hplain] at hnone
  rw [key, hhandle, UniTempGen.get_eq, UniTempGen.refGet]
  split
  · rfl
  · rw [handle, path_concatKey]
    exact uniconf.content_closed _ _ hnone

theorem stop_of_missing {c c' : WvConfEmu} {sect : Str} (hs : c.section? sect = (none, c'))
    (entry : Str) (cache : List Str) : (chain c.uniconf entry).Search cache sect none cache := by
  by_cases hone : (ofString sect).numsegments = 1
  · obtain ⟨t, ht⟩ := exists_spells hone
    have hnode := chain_node hone c.uniconf entry
    have hnone := get_below ht (section?_none hs hone)
    refine .stop ((LinkChain.lookup_eq hnode).trans ?_) ((LinkChain.link_eq hnode).trans (hnone _))
    show (if entry = [] then none else c.uniconf.get (key sect entry)) = none
    rw [hnone, ite_self]
  · have hnode : (chain c.uniconf entry).node sect = none := if_neg hone
    exact .stop (by rw [LinkChain.lookup, hnode, Option.bind_none])
      (by rw [LinkChain.link, hnode, Option.bind_none])

theorem search_fuzzy (c : WvConfEmu) (entry : Str) (cache : List Str) (sect : Str) :
    (c.fuzzy_inherited entry cache sect).2.2.uniconf = c.uniconf ∧
      (chain c.uniconf entry).Search cache sect (c.fuzzy_inherited entry cache sect).1
        (c.fuzzy_inherited entry cache sect).2.1 := by
  induction c, cache, sect using fuzzy_inherited.induct entry with
  | case1 c cache sect c' hs =>
    have hsame := section?_uniconf c sect
    rw [hs] at hsame
    rw [fuzzy_inherited_eq, hs]
    exact ⟨hsame, stop_of_missing hs entry cache⟩
  | case2 c cache sect s c' hs hcache =>
    have hsame := section?_uniconf c sect
    obtain ⟨rfl, hone⟩ := section?_some hs
    rw [hs] at hsame
    rw [fuzzy_inherited_eq, hs]
    dsimp only
    rw [if_pos hcache]
    exact ⟨hsame, .seen (chain_node hone _ _) (by simpa using hcache)⟩
  | case3 c cache sect s c' hs hcache ret hret =>
    have hsame : c'.uniconf = c.uniconf := by rw [← section?_uniconf c sect, hs]
    obtain ⟨rfl, hone⟩ := section?_some hs
    rw [fuzzy_inherited_eq, hs]
    dsimp only
    rw [if_neg hcache, hret]
    rw [get_eq, hsame] at hret
    exact ⟨hsame, .found (chain_node hone _ _) (by simpa using hcache) hret⟩
  | case4 c cache sect s c' hs hcache hnone inherits s' he ih =>
    have hsame : c'.uniconf = c.uniconf := by rw [← section?_uniconf c sect, hs]
    obtain ⟨rfl, hone⟩ := section?_some hs
    have hnext := entry?_value s c'.uniconf (bytes "Inherits")
    rw [fuzzy_inherited_eq, hs]
    dsimp only
    rw [if_neg hcache, hnone, he]
    rw [get_eq, hsame] at hnone
    rw [he, hsame] at hnext
    obtain ⟨hkept, hsearch⟩ := ih
    have hkeep : (c'.keep s').uniconf = c.uniconf := hsame
    rw [hkeep] at hkept hsearch
    exact ⟨hkept, .step (chain_node hone _ _) (by simpa using hcache) hnone hnext.symm hsearch⟩
  | case5 c cache sect s c' hs hcache hnone s' he =>
    have hsame : c'.uniconf = c.uniconf := by rw [← section?_uniconf c sect, hs]
    obtain ⟨rfl, hone⟩ := section?_some hs
    have hnext := entry?_value s c'.uniconf (bytes "Inherits")
    rw [fuzzy_inherited_eq, hs]
    dsimp only
    rw [if_neg hcache, hnone, he]
    rw [get_eq, hsame] at hnone
    rw [he, hsame] at hnext
    exact ⟨hsame, .last (chain_node hone _ _) (by simpa using hcache) hnone hnext.symm⟩

theorem searchAll_fuzzy (c : WvConfEmu) (entry : Str) (cache sect : List Str) :
    (c.fuzzy_sections entry cache sect).2.uniconf = c.uniconf ∧
      (chain c.uniconf entry).SearchAll cache sect (c.fuzzy_sections entry cache sect).1 := by
  induction sect generalizing c cache with
  | nil => exact ⟨rfl, .nil⟩
  | cons i sect ih =>
    obtain ⟨hsame, hsearch⟩ := search_fuzzy c entry cache i
    rw [fuzzy_sections]
    rcases hresult : c.fuzzy_inherited entry cache i with ⟨_ | ret, cache', c'⟩
    · rw [hresult] at hsame hsearch
      obtain ⟨hrest, hsearches⟩ := ih c' cache'
      have hsame : c'.uniconf = c.uniconf := hsame
      rw [hsame] at hrest hsearches
      exact ⟨hrest, .next hsearch hsearches⟩
    · rw [hresult] at hsame hsearch
      exact ⟨hsame, .found hsearch⟩

end WvConfEmu

end WvStreams
